import ModelText.Model.Accessor
import ModelText.Value.Basic

/-!
# Conversion of values

Every value converts to every kind, except that a text converts to a number only when it is one. An
object is written by its description, and a text names an object when the model can look it up.
-/

namespace ModelText

/-- The text of a double in generated text: at most three digits after the point, without zeros at
the end. -/
def doubleText (x : Float) : String :=
  match Number.Reading.ofFloat x with
  | .finite negative mantissa exponent =>
    let digits := Number.dropZeros (Number.fixedPoint mantissa exponent 3)
    let digits := if digits.getLast? = some '.' then digits.dropLast else digits
    if digits = ['0'] then "0" else Number.signed negative digits
  | _ => Number.shortestText x

/-- The text of a truth value. -/
def boolText (b : Bool) : String := if b then "true" else "false"

namespace Scalar

/-- The text of a scalar, without traces. -/
def plain (a : Accessor) : Scalar → String
  | .text t => t.value
  | .object id => a.describe id
  | .bool b => boolText b
  | .int n => toString n.toInt
  | .double x => doubleText x
  | .null => ""

/-- The text of a scalar that belongs to `container` and was made by `origin`. -/
def toText (a : Accessor) (container : Option ObjectId) (origin : Option Template.NodeRef) :
    Scalar → TracedText
  | .text t => t
  | .object id => .ofObject (a.describe id) id origin
  | s => .ofString (s.plain a) container origin

/-- Whether a scalar counts as true. -/
def toBool : Scalar → Bool
  | .object _ => true
  | .text t => String.ofList ((Text.trim t.value).toList.map Char.toLower) = "true"
  | .bool b => b
  | .int n => 0 < n
  | .double x => 0 < x
  | .null => false

def toInt : Scalar → Except CastError Int64
  | .object _ => .ok 1
  | .text t =>
    match Number.readInt64 (Text.trim t.value).toList with
    | some n => .ok n
    | none => .error ⟨.text, .int, t.value⟩
  | .bool b => .ok (if b then 1 else 0)
  | .int n => .ok n
  | .double x => .ok (Number.truncate x)
  | .null => .ok 0

def toDouble : Scalar → Except CastError Float
  | .object _ => .ok 1
  | .text t =>
    match Number.readFloat (Text.trim t.value).toList with
    | some x => .ok x
    | none => .error ⟨.text, .double, t.value⟩
  | .bool b => .ok (if b then 1 else 0)
  | .int n => .ok (Number.ofInt64 n)
  | .double x => .ok x
  | .null => .ok 0

/-- The object that a scalar is or names, or null. -/
def toObject (a : Accessor) : Scalar → Scalar
  | .object id => .object id
  | .null => .null
  | s =>
    match a.lookup (s.plain a) with
    | some id => .object id
    | none => .null

end Scalar

namespace Value

/-- The text of a value, without traces. -/
def plain (a : Accessor) : Value → String
  | .scalar s => s.plain a
  | .list l => String.join (l.items.map fun item => item.value.plain a)

def toBool : Value → Bool
  | .scalar s => s.toBool
  | .list l => !l.items.isEmpty

def toInt : Value → Except CastError Int64
  | .scalar s => s.toInt
  | .list l => .ok (Int64.ofInt l.items.length)

def toDouble : Value → Except CastError Float
  | .scalar s => s.toDouble
  | .list l => .ok (Float.ofNat l.items.length)

/-- The object that a value is or names; of a list, the first item decides. -/
def toObject (a : Accessor) : Value → Scalar
  | .scalar s => s.toObject a
  | .list l =>
    match l.items.head? with
    | some item => item.value.toObject a
    | none => .null

end Value

namespace Datum

/-- The text of a value with its traces. -/
def toText (a : Accessor) (d : Datum) : TracedText :=
  match d.value with
  | .scalar s => s.toText a d.container d.origin
  | .list l =>
    l.items.foldl (fun text item => text.append (item.value.toText a item.container item.origin))
      (.ofString "" d.container d.origin)

/-- The items of a value: null has none, and a scalar is its own item. -/
def toItems (d : Datum) : ItemList :=
  match d.value with
  | .list l => l
  | .scalar .null => {}
  | .scalar s => { items := [d.with s] }

/-- Converts a value; its provenance stays. -/
def adapt (a : Accessor) (kind : Kind) (d : Datum) : Except CastError Datum :=
  match kind with
  | .object => .ok (d.with (.scalar (d.value.toObject a)))
  | .list => .ok (d.with (.list d.toItems))
  | .text => .ok (d.with (.scalar (.text (d.toText a))))
  | .bool => .ok (d.with (.scalar (.bool d.value.toBool)))
  | .int => d.value.toInt.map fun n => d.with (.scalar (.int n))
  | .double => d.value.toDouble.map fun x => d.with (.scalar (.double x))
  | .null => .ok (d.with (.scalar .null))

end Datum

/-- The text of a scalar in messages: an object is written by its number. -/
def Scalar.display : Scalar → String
  | .object id => id.text
  | .text t => t.value
  | .bool b => boolText b
  | .int n => toString n.toInt
  | .double x => doubleText x
  | .null => ""

/-- The text of a value in messages. -/
def Value.display : Value → String
  | .scalar s => s.display
  | .list l => "[" ++ String.intercalate ", " (l.items.map fun item => item.value.display) ++ "]"

end ModelText
