import ModelText.Number.Double

/-!
# Comparing doubles

A double is compared by its parts: its sign, its mantissa and its exponent. From the parts it is seen that the
order of two doubles does not matter for their equality, and what equality with zero and one says about being
positive.
-/

namespace ModelText.Number

open Float.Model (UnpackedFloat)

/-- Comparing the other way round swaps the outcome. -/
theorem compare_swap (x y : UnpackedFloat) : (x.compare y).map Ordering.swap = y.compare x := by
  cases x with
  | notANumber => cases y <;> rfl
  | infinity s =>
    cases y with
    | infinity t => cases s <;> cases t <;> rfl
    | _ => cases s <;> rfl
  | zero s =>
    cases y with
    | infinity t | finite t => cases t <;> rfl
    | _ => rfl
  | finite s m e =>
    cases y with
    | notANumber => cases s <;> rfl
    | infinity t => cases s <;> cases t <;> rfl
    | zero t => cases s <;> rfl
    | finite t n f =>
      have hsize : ((compare e f).then (compare m n)).swap = (compare f e).then (compare n m) := by
        rw [Ordering.swap_then, ← Std.OrientedCmp.eq_swap, ← Std.OrientedCmp.eq_swap]
      cases s <;> cases t
      · exact congrArg some (congrArg Ordering.swap hsize)
      · rfl
      · rfl
      · exact congrArg some hsize

/-- Equality of doubles does not depend on the order. -/
theorem beq_comm (x y : Float) : (x == y) = (y == x) := by
  have hswap := compare_swap x.toModel.unpack y.toModel.unpack
  change (x.toModel.unpack.compare y.toModel.unpack == some .eq) =
    (y.toModel.unpack.compare x.toModel.unpack == some .eq)
  rw [← hswap]
  rcases x.toModel.unpack.compare y.toModel.unpack with _ | order
  · rfl
  · cases order <;> rfl

/-- What equals a positive number is greater than zero. -/
theorem compare_zero_of_compare_finite {m : Nat} {e : Int} {hm : 0 < m} {x : UnpackedFloat}
    (h : (UnpackedFloat.finite .positive m e hm).compare x = some .eq) :
    (UnpackedFloat.zero .positive).compare x = some .lt := by
  cases x with
  | notANumber => cases h
  | infinity s => cases s <;> cases h
  | zero s => cases h
  | finite s n f =>
    cases s with
    | negative => cases h
    | positive => rfl

theorem lt_iff_compare (x y : Float) : x < y ↔ x.toModel.unpack.compare y.toModel.unpack = some .lt := by
  change decide (x.toModel < y.toModel) = true ↔ _
  rw [decide_eq_true_iff]
  exact beq_iff_eq

/-- What equals one is positive. -/
theorem pos_of_one_beq {x : Float} (h : (1 == x) = true) : 0 < x := by
  have hequal : (1 : Float).toModel.unpack.compare x.toModel.unpack = some .eq := eq_of_beq h
  have hless : (0 : Float).toModel.unpack.compare x.toModel.unpack = some .lt :=
    compare_zero_of_compare_finite hequal
  exact (lt_iff_compare 0 x).mpr hless

/-- What equals zero is not positive. -/
theorem not_pos_of_zero_beq {x : Float} (h : (0 == x) = true) : ¬ 0 < x := by
  have hequal : (0 : Float).toModel.unpack.compare x.toModel.unpack = some .eq := eq_of_beq h
  rw [lt_iff_compare, hequal]
  nofun

end ModelText.Number
