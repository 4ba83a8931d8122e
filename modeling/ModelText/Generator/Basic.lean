import ModelText.Generator.Config
import ModelText.Script.Registry
import ModelText.Service.Builtin
import ModelText.Template.Document

/-!
# Generators

A generator holds script files and the services that they may import. Files are added once and then
evaluated for any number of models.
-/

namespace ModelText

open Template (FileId)

/-- Why a request to a generator fails. -/
inductive GeneratorError where
  | fileExists (name : String)
  | missingTemplate (name : String)
  | invalidSource (failure : SyntaxFailure)
  | evaluation (failure : Failure)
  /-- The evaluation did not end within its bound. -/
  | unfinished
  deriving Repr

def GeneratorError.message : GeneratorError → String
  | .fileExists name => s!"Template file already exists: {name}"
  | .missingTemplate name => s!"Template not found: {name}"
  | .invalidSource failure => failure.message
  | .evaluation failure => failure.message
  | .unfinished => "Evaluation did not end"

/-- Script files with their settings and services. -/
structure Generator where
  config : GeneratorConfig := {}
  files : Array Script.File := #[]
  registry : Script.Registry := {}
  memo : Script.Memo := []
  serviceSets : List ServiceSet := []

namespace Generator

def file? (g : Generator) (id : FileId) : Option Script.File := g.files[id]?

/-- The declaration of a script, with its file. -/
def script? (g : Generator) (ref : Script.Ref) : Option (Script.File × Script.Declaration) :=
  (g.file? ref.file).bind fun file => (file.scripts[ref.index]?).map fun script => (file, script)

/-- Adds a file that was read, and answers its number. -/
def add (g : Generator) (file : Script.File) : Except GeneratorError (FileId × Generator) :=
  if g.files.any (·.name = file.name) then .error (.fileExists file.name)
  else if file.hasErrors then .error (.invalidSource ⟨file.name, file.errors⟩)
  else
    let id := g.files.size
    .ok (id, { g with
      files := g.files.push file
      registry := g.registry.addScripts id 0 file.scripts
      memo := [] })

/-- Reads and adds a script file. -/
def addFile (g : Generator) (name source : String) : Except GeneratorError (FileId × Generator) :=
  g.add (.parse name source g.config.rootType g.config.fileLineBreaks)

/-- Reads and adds a source that is one script body for every object. -/
def addTemplate (g : Generator) (name source : String) :
    Except GeneratorError (FileId × Generator) :=
  g.add (.parseBody name source g.config.rootType)

/-- Makes services importable. A set of the same name that was registered before is replaced. -/
def registerServices (g : Generator) (set : ServiceSet) : Generator :=
  { g with serviceSets := g.serviceSets.filter (·.name ≠ set.name) ++ [set] }

/-- The service that a file sees under a name: of the sets it imports, in order, and then of the
built-in services. -/
def findService? (g : Generator) (file : Script.File) (name : String) (arity : Nat) :
    Option Service :=
  let imported := file.imports.filterMap fun entry =>
    g.serviceSets.find? (·.name = entry.value)
  match imported.findSome? (·.find? name arity) with
  | some service => some service
  | none => Service.builtins.find? name arity

/-- Whether an import names a set of services or a file. -/
def isImportable (g : Generator) (import_ : String) : Bool :=
  g.serviceSets.any (·.name = import_) ||
    g.files.any fun file => Script.stem file.name = import_

/-- The warnings of a file, and what in it cannot be linked. -/
def checkFile (g : Generator) (a : Accessor) (file : Script.File) : List Diagnostic :=
  let src := Source.ofString file.source
  let warnings := file.diagnostics.filter fun d => !d.isError
  let imports := file.imports.filterMap fun entry =>
    if g.isImportable entry.value then none
    else some (Diagnostic.ofSpan src .error entry.span (.unresolvedImport entry.value))
  let types := file.scripts.filterMap fun script =>
    if script.typeName = g.config.rootType || a.hasType script.typeName then none
    else some (Diagnostic.ofSpan src .error script.span (.unresolvedClassifier script.typeName))
  warnings ++ imports ++ types

/-- The problems of all files, each with the name of its file. -/
def check (g : Generator) (a : Accessor) : List (String × Diagnostic) :=
  g.files.toList.flatMap fun file => (g.checkFile a file).map fun d => (file.name, d)

/-- The script for objects of a type. -/
def resolve (g : Generator) (a : Accessor) (typeName name : String) :
    Option Script.Ref × Generator :=
  let (found, memo) := g.registry.resolve a typeName name g.config.rootType g.memo
  (found, { g with memo })

end Generator

end ModelText
