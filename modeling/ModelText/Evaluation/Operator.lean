import ModelText.Template.Tree
import ModelText.Value.Append

/-!
# Operators on values

Arithmetic on integers wraps around; a double on either side makes it floating. Addition with a text
concatenates, and addition of lists appends. Numbers are ordered as doubles and everything else by
text.
-/

namespace ModelText.Evaluation

open Template (Operator)

/-- Why an operator has no result. -/
inductive OperatorError where
  | cast (error : CastError)
  | divisionByZero
  deriving DecidableEq, Repr

/-- The order of two doubles; a NaN is taken for equal to everything. -/
def compareDoubles (x y : Float) : Ordering := if x < y then .lt else if y < x then .gt else .eq

/-- A conversion whose failure is a failure of an operator. -/
def casting {α : Type} (x : Except CastError α) : Except OperatorError α := x.mapError .cast

/-- The order of two values. -/
def ordering (a : Accessor) (x y : Value) : Except OperatorError Ordering :=
  if x.isNumeric && y.isNumeric then do
    return compareDoubles (← casting x.toDouble) (← casting y.toDouble)
  else
    .ok (compare (x.plain a) (y.plain a))

/-- Applies an operation on doubles when one of the values is a double, and otherwise one on
integers. -/
def arithmetic (onDoubles : Float → Float → Float)
    (onInts : Int64 → Int64 → Except OperatorError Int64) (x y : Value) :
    Except OperatorError Scalar :=
  if x.kind = .double || y.kind = .double then do
    return .double (onDoubles (← casting x.toDouble) (← casting y.toDouble))
  else do
    return .int (← onInts (← casting x.toInt) (← casting y.toInt))

/-- The sum of two values; `current` is what a number belongs to. -/
def add (a : Accessor) (x y current : Datum) : Except OperatorError Datum :=
  match x.value, y.value with
  | .scalar (.text _), _ | _, .scalar (.text _) | .list _, .list _ => .ok (x.append a y)
  | _, _ => do
    let sum ← arithmetic (· + ·) (fun m n => .ok (m + n)) x.value y.value
    return .ofScalar sum current

/-- The quotient of integers, without its fraction. -/
def divide (m n : Int64) : Except OperatorError Int64 :=
  if n = 0 then .error .divisionByZero else .ok (m / n)

/-- The result of a binary operator; `current` is what it belongs to. -/
def binary (a : Accessor) (operator : Operator) (x y current : Datum) :
    Except OperatorError Datum :=
  let truth (b : Bool) : Datum := .ofBool b current
  let ordered (p : Ordering → Bool) : Except OperatorError Datum :=
    (ordering a x.value y.value).map fun o => truth (p o)
  let number (n : Except OperatorError Scalar) : Except OperatorError Datum :=
    n.map fun s => .ofScalar s current
  match operator with
  | .equal => .ok (truth (x.value.equal a y.value))
  | .notEqual => .ok (truth (!x.value.equal a y.value))
  | .greater => ordered Ordering.isGT
  | .less => ordered Ordering.isLT
  | .atLeast => ordered Ordering.isGE
  | .atMost => ordered Ordering.isLE
  | .add => add a x y current
  | .subtract => number (arithmetic (· - ·) (fun m n => .ok (m - n)) x.value y.value)
  | .multiply => number (arithmetic (· * ·) (fun m n => .ok (m * n)) x.value y.value)
  | .divide => number (arithmetic (· / ·) divide x.value y.value)
  | .or => .ok (truth (x.value.toBool || y.value.toBool))
  | .and => .ok (truth (x.value.toBool && y.value.toBool))

end ModelText.Evaluation
