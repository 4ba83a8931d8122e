import ModelText.Value.Convert

/-!
# Equality of values

Values of one kind are compared as such. Of two kinds, the first value is converted to the kind of
the second; where that is not possible, and where one of the two is null, their texts are compared.
-/

namespace ModelText

namespace Scalar

/-- Whether two scalars of one kind are equal. -/
def sameKindEqual : Scalar → Scalar → Bool
  | .object x, .object y => x = y
  | .text x, .text y => x.value = y.value
  | .bool x, .bool y => x = y
  | .int x, .int y => x = y
  | .double x, .double y => x == y
  | .null, .null => true
  | _, _ => false

/-- A scalar as another kind of scalar, if it converts. -/
def convert? (a : Accessor) (kind : Kind) (s : Scalar) : Option Scalar :=
  match kind with
  | .object => some (s.toObject a)
  | .text => some (.text (.ofString (s.plain a) none none))
  | .bool => some (.bool s.toBool)
  | .int => s.toInt.toOption.map .int
  | .double => s.toDouble.toOption.map .double
  | .null => some .null
  | .list => none

/-- Whether two scalars are equal. -/
def equal (a : Accessor) (x y : Scalar) : Bool :=
  if x.kind = y.kind then x.sameKindEqual y
  else if x.kind = .null ∨ y.kind = .null then x.plain a = y.plain a
  else
    match x.convert? a y.kind with
    | some x' => if x'.kind = y.kind then x'.sameKindEqual y else x.plain a = y.plain a
    | none => x.plain a = y.plain a

end Scalar

/-- Whether two lists have equal items in the same order. -/
def itemsEqual (a : Accessor) : List Item → List Item → Bool
  | [], [] => true
  | x :: xs, y :: ys => x.value.equal a y.value && itemsEqual a xs ys
  | _, _ => false

namespace Value

/-- A value as a scalar of another kind, if it converts. -/
def convert? (a : Accessor) (kind : Kind) : Value → Option Scalar
  | .scalar s => s.convert? a kind
  | .list l =>
    match kind with
    | .object => some ((Value.list l).toObject a)
    | .text => some (.text (.ofString ((Value.list l).plain a) none none))
    | .bool => some (.bool (Value.list l).toBool)
    | .int => (Value.list l).toInt.toOption.map .int
    | .double => (Value.list l).toDouble.toOption.map .double
    | .null => some .null
    | .list => none

/-- Whether two values are equal. -/
def equal (a : Accessor) : Value → Value → Bool
  | .scalar x, .scalar y => x.equal a y
  | .list x, .list y => itemsEqual a x.items y.items
  | .scalar x, .list y =>
    if x.kind = .null then (Value.scalar x).plain a = (Value.list y).plain a
    else itemsEqual a [{ value := x }] y.items
  | .list x, .scalar y =>
    if y.kind = .null then (Value.list x).plain a = (Value.scalar y).plain a
    else
      match (Value.list x).convert? a y.kind with
      | some x' =>
        if x'.kind = y.kind then x'.sameKindEqual y
        else (Value.list x).plain a = (Value.scalar y).plain a
      | none => (Value.list x).plain a = (Value.scalar y).plain a

end Value

end ModelText
