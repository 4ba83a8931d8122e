import ModelText.Number.Double

/-!
# Models

A model is a collection of typed objects. Objects have features and are contained in one another; a
type inherits from its supertypes. Objects are numbered in the order of their creation.
-/

namespace ModelText

/-- The number of an object. -/
abbrev ObjectId := Nat

/-- The text of an object that only its number is known of. -/
def ObjectId.text (object : ObjectId) : String := s!"#{object}"

/-- The value of a feature. -/
inductive FeatureValue where
  | null
  | bool (value : Bool)
  | int (value : Int64)
  | double (value : Float)
  | text (value : String)
  | object (id : ObjectId)
  | list (items : List FeatureValue)
  deriving Repr, Inhabited

/-- An object: its type, its features in the order they were set, and its place in the containment. -/
structure Object where
  typeName : String
  features : List (String × FeatureValue) := []
  parent : Option ObjectId := none
  children : List ObjectId := []
  deriving Inhabited

/-- A type hierarchy and objects. -/
structure Model where
  types : List (String × List String) := []
  objects : Array Object := #[]
  deriving Inhabited

mutual

/-- The text of a feature value in the description of an object. -/
def FeatureValue.describe : FeatureValue → String
  | .null => "null"
  | .bool value => if value then "true" else "false"
  | .int value => toString value.toInt
  | .double value => Number.shortestText value
  | .text value => value
  | .object id => id.text
  | .list items => "[" ++ String.intercalate ", " (FeatureValue.describeAll items) ++ "]"

/-- The texts of feature values. -/
def FeatureValue.describeAll : List FeatureValue → List String
  | [] => []
  | value :: rest => value.describe :: FeatureValue.describeAll rest

end

/-- The list with the entry of `key` replaced by `f` of it, or added at the end. -/
def insertEntry {α : Type} (key : String) (f : Option α → α) :
    List (String × α) → List (String × α)
  | [] => [(key, f none)]
  | (k, value) :: rest =>
    if k = key then (k, f (some value)) :: rest else (k, value) :: insertEntry key f rest

namespace Model

/-- The number of objects. -/
def size (m : Model) : Nat := m.objects.size

def object? (m : Model) (id : ObjectId) : Option Object := m.objects[id]?

/-- Declares a type with its immediate supertypes. -/
def declareType (m : Model) (name : String) (supertypes : List String) : Model :=
  { m with types := insertEntry name (fun _ => supertypes) m.types }

/-- Adds an object, contained in `parent` if there is one, and answers its number. Its type becomes
known. -/
def create (m : Model) (typeName : String) (parent : Option ObjectId) : ObjectId × Model :=
  let id := m.size
  let objects := m.objects.push { typeName, parent }
  let objects := match parent with
    | some p => objects.modify p fun o => { o with children := o.children ++ [id] }
    | none => objects
  (id, { types := insertEntry typeName (fun known => known.getD []) m.types, objects })

/-- Sets a feature of an object. -/
def set (m : Model) (id : ObjectId) (feature : String) (value : FeatureValue) : Model :=
  { m with objects := m.objects.modify id fun o =>
      { o with features := insertEntry feature (fun _ => value) o.features } }

/-- The type, followed by every feature with its value. -/
def describe (m : Model) (id : ObjectId) : String :=
  match m.object? id with
  | none => id.text
  | some o => o.typeName ++
      String.join (o.features.map fun (name, value) => " " ++ name ++ "=" ++ value.describe)

end Model

end ModelText
