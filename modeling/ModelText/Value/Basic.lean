import ModelText.Template.Diagnostic
import ModelText.Value.Kind
import ModelText.Value.TracedText

/-!
# Values

The results of evaluation. A value is a scalar or a list of scalars: lists do not nest, since a list
put into a list adds its items. Each value, and each item of a list, is kept with its provenance: the
object that it belongs to, the template node that made it, and the issues met on the way.
-/

namespace ModelText

open Template (NodeRef)

/-- A problem that did not end the evaluation. Its span is a range of the generated text. -/
structure Issue where
  severity : Severity
  message : String
  span : Span
  source : Option NodeRef
  deriving DecidableEq, Repr

/-- The issues of a text that was placed at `offset`. -/
def shiftIssues (offset : Nat) (issues : List Issue) : List Issue :=
  issues.map fun issue => { issue with span := issue.span.shift offset }

/-- Something with its provenance. -/
structure Traced (α : Type) where
  value : α
  container : Option ObjectId := none
  origin : Option NodeRef := none
  log : List Issue := []

/-- The same provenance for another value. -/
def Traced.with {α β : Type} (x : Traced α) (value : β) : Traced β :=
  { value, container := x.container, origin := x.origin, log := x.log }

/-- Records the issues of a text placed at `offset`. -/
def Traced.addIssues {α : Type} (x : Traced α) (offset : Nat) (issues : List Issue) : Traced α :=
  { x with log := x.log ++ shiftIssues offset issues }

/-- A value that is no list. -/
inductive Scalar where
  | object (id : ObjectId)
  | text (value : TracedText)
  | bool (value : Bool)
  | int (value : Int64)
  | double (value : Float)
  | null

/-- An item of a list. -/
abbrev Item := Traced Scalar

/-- Items in order. A unique list refuses items that are equal to an earlier one. -/
structure ItemList where
  items : List Item := []
  unique : Bool := false

/-- The result of an evaluation. -/
inductive Value where
  | scalar (value : Scalar)
  | list (items : ItemList)

/-- A value with its provenance. -/
abbrev Datum := Traced Value

def Scalar.kind : Scalar → Kind
  | .object _ => .object
  | .text _ => .text
  | .bool _ => .bool
  | .int _ => .int
  | .double _ => .double
  | .null => .null

def Value.kind : Value → Kind
  | .scalar s => s.kind
  | .list _ => .list

namespace Value

/-- The object that a value is. -/
def object? : Value → Option ObjectId
  | .scalar (.object id) => some id
  | _ => none

/-- The text that a value is. -/
def text? : Value → Option TracedText
  | .scalar (.text t) => some t
  | _ => none

/-- The list that a value is. -/
def list? : Value → Option ItemList
  | .list l => some l
  | _ => none

def isNull : Value → Bool
  | .scalar .null => true
  | _ => false

def isNumeric : Value → Bool
  | .scalar (.int _) | .scalar (.double _) => true
  | _ => false

/-- The number of elements: a list counts its items, null and the empty text count nothing, and
anything else is one element. -/
def size : Value → Nat
  | .list l => l.items.length
  | .scalar .null => 0
  | .scalar (.text t) => if t.value.isEmpty then 0 else 1
  | .scalar _ => 1

/-- Whether a value is an object, or a list whose first item is one. -/
def isObjectLike : Value → Bool
  | .scalar (.object _) => true
  | .list l => l.items.head?.any fun item => item.value.kind = .object
  | _ => false

end Value

/-- A list item as a value of its own. -/
def Traced.toDatum (item : Item) : Datum := item.with (.scalar item.value)

namespace Datum

variable {α : Type}

/-- The value of an object on its own behalf. -/
def root (id : ObjectId) : Datum := { value := .scalar (.object id), container := some id }

/-- A scalar that belongs to the object that `parent` belongs to. -/
def ofScalar (value : Scalar) (parent : Traced α) : Datum :=
  { value := .scalar value, container := parent.container }

/-- A text that belongs to the object and the template node of `parent`. -/
def ofString (value : String) (parent : Traced α) : Datum :=
  { value := .scalar (.text (.ofString value parent.container parent.origin))
    container := parent.container
    origin := parent.origin }

def ofObject (id : ObjectId) (parent : Traced α) : Datum := ofScalar (.object id) parent

def ofInt (value : Int64) (parent : Traced α) : Datum := ofScalar (.int value) parent

def ofDouble (value : Float) (parent : Traced α) : Datum := ofScalar (.double value) parent

def ofBool (value : Bool) (parent : Traced α) : Datum := ofScalar (.bool value) parent

def null (parent : Traced α) : Datum := ofScalar .null parent

/-- A list that belongs to the object that `parent` belongs to. -/
def ofList (items : ItemList) (parent : Traced α) : Datum :=
  { value := .list items, container := parent.container }

end Datum

mutual

/-- The values of a feature without its nested lists. -/
def FeatureValue.leaves : FeatureValue → List FeatureValue
  | .list items => FeatureValue.leavesOfAll items
  | .null => [.null]
  | .bool value => [.bool value]
  | .int value => [.int value]
  | .double value => [.double value]
  | .text value => [.text value]
  | .object id => [.object id]

/-- The values of a list of features without its nested lists. -/
def FeatureValue.leavesOfAll : List FeatureValue → List FeatureValue
  | [] => []
  | value :: rest => value.leaves ++ FeatureValue.leavesOfAll rest

end

/-- A feature value that is no list. -/
def FeatureValue.scalar? {α : Type} (parent : Traced α) : FeatureValue → Option Scalar
  | .null => some .null
  | .bool value => some (.bool value)
  | .int value => some (.int value)
  | .double value => some (.double value)
  | .text value => some (.text (.ofString value parent.container parent.origin))
  | .object id => some (.object id)
  | .list _ => none

/-- A feature value as a value that belongs to the object of `parent`. -/
def Datum.ofFeature {α : Type} (value : FeatureValue) (parent : Traced α) : Datum :=
  match value with
  | .list _ =>
    let items := value.leaves.filterMap fun leaf =>
      (leaf.scalar? parent).map fun s => { value := s, container := parent.container : Item }
    Datum.ofList { items } parent
  | .text s => Datum.ofString s parent
  | leaf => Datum.ofScalar ((leaf.scalar? parent).getD .null) parent

end ModelText
