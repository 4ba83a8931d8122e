import ModelText.Model.Accessor
import ModelText.Script.File
import ModelText.Template.Reference

/-!
# Finding scripts by type

Scripts are found by the type of an object and by their name. A script for a type applies to the
types that inherit from it, unless a nearer type has a script of the same name; scripts of the root
type apply to all. The answer for a type and a name is kept until another file is added.
-/

namespace ModelText.Script

open Template (FileId)

/-- A script of a loaded file. -/
structure Ref where
  file : FileId
  index : Nat
  deriving DecidableEq, Repr, Inhabited

/-- A type and the name of a script. -/
abbrev Key := String × String

/-- Answers that were found before. -/
abbrev Memo := List (Key × Option Ref)

/-- The scripts of all loaded files. -/
structure Registry where
  scripts : List (Key × Ref) := []
  names : List String := []
  deriving Repr

namespace Registry

/-- Adds a script; one that an earlier file declared for the same type and name stays. -/
def addScript (r : Registry) (ref : Ref) (script : Declaration) : Registry :=
  let key := (script.typeName, script.name)
  { scripts := if (r.scripts.lookup key).isSome then r.scripts else r.scripts ++ [(key, ref)]
    names := if r.names.contains script.name then r.names else r.names ++ [script.name] }

/-- Adds scripts of a file, of which the first has the given index. -/
def addScripts (r : Registry) (file : FileId) : Nat → List Declaration → Registry
  | _, [] => r
  | index, script :: rest => (r.addScript ⟨file, index⟩ script).addScripts file (index + 1) rest

/-- Whether some type has a script of this name. -/
def hasName (r : Registry) (name : String) : Bool := r.names.contains name

/-- The script declared for exactly this type. -/
def declared? (r : Registry) (typeName name : String) : Option Ref := r.scripts.lookup (typeName, name)

/-- The first answer of a search over several types, with all types visited. -/
def firstOf (search : List String → String → Option Ref × List String) :
    List String → List String → Option Ref × List String
  | visited, [] => (none, visited)
  | visited, typeName :: rest =>
    match search visited typeName with
    | (some ref, visited) => (some ref, visited)
    | (none, visited) => firstOf search visited rest

/-- Looks for a script of a type or of its supertypes, depth first in the order of declaration, and
answers the types visited; `fuel` bounds the length of a path. -/
def walk (r : Registry) (a : Accessor) (name : String) :
    Nat → List String → String → Option Ref × List String
  | 0, visited, _ => (none, visited)
  | fuel + 1, visited, typeName =>
    if visited.contains typeName then (none, visited)
    else
      match r.declared? typeName name with
      | some ref => (some ref, typeName :: visited)
      | none => firstOf (r.walk a name fuel) (typeName :: visited) (a.supertypes typeName)

/-- The script of a type, of its nearest supertype or of the root type. Each type of a path is
another one, and only declared types have supertypes, so the number of types bounds the path. -/
def find? (r : Registry) (a : Accessor) (typeName name rootType : String) : Option Ref :=
  match (r.walk a name (a.model.types.length + 2) [] typeName).1 with
  | some ref => some ref
  | none => if typeName = rootType then none else r.declared? rootType name

/-- The script for a type and a name: the answer found before, or a new one that is kept. -/
def resolve (r : Registry) (a : Accessor) (typeName name rootType : String) (memo : Memo) :
    Option Ref × Memo :=
  match memo.lookup (typeName, name) with
  | some known => (known, memo)
  | none =>
    let found := r.find? a typeName name rootType
    (found, ((typeName, name), found) :: memo)

end Registry

end ModelText.Script
