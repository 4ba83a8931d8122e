import ModelText.Model.Basic
import ModelText.Number.Integer
import ModelText.Span
import ModelText.Text.Blank

/-!
# Access to models

What the engine sees of a model. An accessor need not know more of an object than its type, its
features and its place: then objects are described by their type and number, no text names an object,
and every type counts as known. Reading a feature may fail.
-/

namespace ModelText

/-- Why a feature cannot be read. -/
inductive AccessError where
  | unknownObject (object : ObjectId)
  | unreadable (feature message : String)
  deriving DecidableEq, Repr

def AccessError.message : AccessError → String
  | .unknownObject object => s!"Unknown object {object.text}"
  | .unreadable feature message => s!"Cannot read feature '{feature}': {message}"

/-- A model as the engine sees it. -/
structure Accessor where
  model : Model
  /-- Whether objects have descriptions and names of their own and types are declared. -/
  named : Bool := true
  /-- The features that cannot be read, with the reason. -/
  unreadable : List (String × String) := []

namespace Accessor

def typeOf (a : Accessor) (object : ObjectId) : Option String :=
  (a.model.object? object).map (·.typeName)

/-- The immediate supertypes of a type, in the order of its declaration. -/
def supertypes (a : Accessor) (typeName : String) : List String :=
  (a.model.types.lookup typeName).getD []

/-- Reads a feature; an object without the feature has no value. -/
def feature (a : Accessor) (object : ObjectId) (name : String) :
    Except AccessError (Option FeatureValue) :=
  match a.unreadable.lookup name with
  | some message => .error (.unreadable name message)
  | none =>
    match a.model.object? object with
    | none => .error (.unknownObject object)
    | some o => .ok (o.features.lookup name)

/-- The objects contained in an object. -/
def children (a : Accessor) (object : ObjectId) : List ObjectId :=
  ((a.model.object? object).map (·.children)).getD []

def parent (a : Accessor) (object : ObjectId) : Option ObjectId :=
  (a.model.object? object).bind (·.parent)

/-- The text of an object in generated text and in messages. -/
def describe (a : Accessor) (object : ObjectId) : String :=
  if a.named then a.model.describe object
  else match a.typeOf object with
    | some typeName => s!"{typeName} {object.text}"
    | none => object.text

/-- Finds the object that a text such as `#3` names. -/
def lookup (a : Accessor) (text : String) : Option ObjectId :=
  if a.named then
    match (Text.trim text).toList with
    | '#' :: digits =>
      (Number.readNat maxOffset digits).filter fun id => (a.model.object? id).isSome
    | _ => none
  else
    none

/-- Whether a type is known. -/
def hasType (a : Accessor) (typeName : String) : Bool :=
  !a.named || (a.model.types.lookup typeName).isSome

/-- Looks for `expected` among the queued types and their supertypes, each type once; `fuel` bounds
the number of types that enter the queue. -/
def conformsFrom (a : Accessor) (expected : String) : Nat → List String → List String → Bool
  | 0, _, _ => false
  | _ + 1, _, [] => false
  | fuel + 1, seen, current :: queue =>
    if current = expected then true
    else if seen.contains current then a.conformsFrom expected fuel seen queue
    else a.conformsFrom expected fuel (current :: seen) (queue ++ a.supertypes current)

/-- Whether a type is `expected` or inherits from it. Supertypes are looked up once for each type, so
all declarations together bound the length of the queue. -/
def typeConforms (a : Accessor) (typeName expected : String) : Bool :=
  let bound := a.model.types.foldl (fun total (_, supertypes) => total + supertypes.length) 0
  a.conformsFrom expected (bound + 2) [] [typeName]

/-- Whether an object is of a type or of a type that inherits from it. -/
def isKindOf (a : Accessor) (object : ObjectId) (typeName : String) : Bool :=
  (a.typeOf object).any fun own => a.typeConforms own typeName

/-- The objects below an object, each followed by the objects below it; `fuel` bounds the depth. -/
def contentsBelow (a : Accessor) : Nat → ObjectId → List ObjectId
  | 0, _ => []
  | fuel + 1, object =>
    (a.children object).flatMap fun child => child :: a.contentsBelow fuel child

/-- All objects contained in an object, directly or not. An object is created after the one it is
contained in, so no path is longer than the model. -/
def allContents (a : Accessor) (object : ObjectId) : List ObjectId :=
  a.contentsBelow (a.model.size + 1) object

end Accessor

end ModelText
