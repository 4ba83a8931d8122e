import ModelText.Proofs.Evaluation.LeftFold
import ModelText.Proofs.Number.Converted
import ModelText.Proofs.Value.Symmetry

/-!
# Comparing integers

Integers are equal when they are the same, but they are ordered as doubles, which have 53 binary digits. Integers
that are rounded to one double have no order among them, so those that are rounded to one double without being equal
are neither less nor equal nor greater.
-/

namespace ModelText.Evaluation

open Number (nearest ofInt64)
open Template (NodeId Operator)

/-- The operators that compare two values. -/
inductive Comparison where
  | equal
  | notEqual
  | less
  | atMost
  | greater
  | atLeast
  deriving DecidableEq, Repr

namespace Comparison

def operator : Comparison → Operator
  | .equal => .equal
  | .notEqual => .notEqual
  | .less => .less
  | .atMost => .atMost
  | .greater => .greater
  | .atLeast => .atLeast

/-- What a comparison says of values in some order. -/
def holds : Comparison → Ordering → Bool
  | .equal => Ordering.isEq
  | .notEqual => Ordering.isNe
  | .less => Ordering.isLT
  | .atMost => Ordering.isLE
  | .greater => Ordering.isGT
  | .atLeast => Ordering.isGE

/-- The order of two integers that a comparison goes by. -/
def orderOf (m n : Int) : Comparison → Ordering
  | .equal | .notEqual => compare m n
  | _ => compare (nearest m) (nearest n)

end Comparison

theorem compareDoubles_ofInt64 (m n : Int64) :
    compareDoubles (ofInt64 m) (ofInt64 n) = compare (nearest m.toInt) (nearest n.toInt) := by
  have hless := Number.lt_iff_compare (ofInt64 m) (ofInt64 n)
  have hgreater := Number.lt_iff_compare (ofInt64 n) (ofInt64 m)
  rw [Number.compare_ofInt64, Option.some_inj, Int.compare_eq_lt] at hless hgreater
  unfold compareDoubles
  rcases Int.lt_trichotomy (nearest m.toInt) (nearest n.toInt) with h | h | h
  · rw [if_pos (hless.mpr h), Int.compare_eq_lt.mpr h]
  · rw [if_neg (by rw [hless]; omega), if_neg (by rw [hgreater]; omega), Int.compare_eq_eq.mpr h]
  · rw [if_neg (by rw [hless]; omega), if_pos (hgreater.mpr h), Int.compare_eq_gt.mpr h]

theorem ordering_ints (a : Accessor) (m n : Int64) :
    ordering a (.scalar (.int m)) (.scalar (.int n)) = .ok (compare (nearest m.toInt) (nearest n.toInt)) :=
  congrArg Except.ok (compareDoubles_ofInt64 m n)

theorem equal_ints (a : Accessor) (m n : Int64) :
    Value.equal a (.scalar (.int m)) (.scalar (.int n)) = (compare m.toInt n.toInt).isEq := by
  have hequal : Value.equal a (.scalar (.int m)) (.scalar (.int n)) = true ↔ m.toInt = n.toInt :=
    beq_iff_eq.trans Int64.toInt_inj.symm
  rw [Bool.eq_iff_iff, hequal, Ordering.isEq_iff_eq_eq, Int.compare_eq_eq]

section Operands

variable (a : Accessor) (m n : Int64) (p q current : Datum)

/-- The result of a comparison of two integers. -/
theorem binary_ints (c : Comparison) :
    binary a c.operator (p.with (.scalar (.int m))) (q.with (.scalar (.int n))) current =
      .ok (.ofBool (c.holds (c.orderOf m.toInt n.toInt)) current) := by
  have hequal := equal_ints a m n
  have hordering := ordering_ints a m n
  cases c with
  | equal =>
    simp only [Comparison.operator, binary, Traced.with, hequal]
    rfl
  | notEqual =>
    have hne (order : Ordering) : (!order.isEq) = order.isNe := by cases order <;> rfl
    simp only [Comparison.operator, binary, Traced.with, hequal, hne]
    rfl
  | _ =>
    simp only [Comparison.operator, binary, Traced.with, hordering]
    rfl

theorem binary_ints_iff (c : Comparison) (b : Bool) :
    binary a c.operator (p.with (.scalar (.int m))) (q.with (.scalar (.int n))) current = .ok (.ofBool b current) ↔
      c.holds (c.orderOf m.toInt n.toInt) = b := by
  rw [binary_ints, Except.ok.injEq, Datum.ofBool_inj]

/-- The result of an operation whose two operands are evaluated to integers. -/
theorem run_comparison {env : Env} {scope : Scope} {c : Comparison} {root left right : NodeId} {receiver : Datum}
    {s s' s'' : State} {fuel : Nat} (hkind : scope.kind? root = some (.operation c.operator [left, right]))
    (hleft : run env fuel (.expression scope left receiver current) s = (.ok (p.with (.scalar (.int m))), s'))
    (hright : run env fuel (.expression scope right receiver current) s' = (.ok (q.with (.scalar (.int n))), s'')) :
    run env (fuel + 1) (.expression scope root receiver current) s =
      (.ok (.ofBool (c.holds (c.orderOf m.toInt n.toInt)) current), s'') := by
  have hcombine (x : Datum) : combine env (run env fuel) scope receiver current c.operator right x =
      run env fuel (.expression scope right receiver current) >>= (applyOperator env c.operator x · current) := by
    cases c <;> rfl
  rw [run, step_pair hkind, Eval.bind_apply, hleft]
  dsimp only
  rw [hcombine, Eval.bind_apply, hright]
  dsimp only
  rw [applyOperator, binary_ints]
  rfl

end Operands

/-- Rounding keeps the order of integers, unless it makes different ones equal. -/
theorem compare_nearest_iff (m n : Int) :
    compare (nearest m) (nearest n) = compare m n ↔ m = n ∨ nearest m ≠ nearest n := by
  rcases Int.lt_trichotomy m n with h | rfl | h
  · have hle := Number.nearest_mono (Int.le_of_lt h)
    rw [Int.compare_eq_lt.mpr h, Int.compare_eq_lt]
    omega
  · exact iff_of_true (by rw [Int.compare_eq_eq.mpr rfl, Int.compare_eq_eq.mpr rfl]) (.inl rfl)
  · have hle := Number.nearest_mono (Int.le_of_lt h)
    rw [Int.compare_eq_gt.mpr h, Int.compare_eq_gt]
    omega

namespace Comparison

theorem holds_less_iff (m n : Int) : less.holds (less.orderOf m n) = true ↔ nearest m < nearest n :=
  Ordering.isLT_iff_eq_lt.trans Int.compare_eq_lt

theorem holds_equal_iff (m n : Int) : equal.holds (equal.orderOf m n) = true ↔ m = n :=
  Ordering.isEq_iff_eq_eq.trans Int.compare_eq_eq

theorem holds_greater_iff (m n : Int) : greater.holds (greater.orderOf m n) = true ↔ nearest n < nearest m :=
  Ordering.isGT_iff_eq_gt.trans Int.compare_eq_gt

/-- Two of the comparisons tell every order from the others. -/
theorem eq_of_holds {order other : Ordering} (hless : less.holds order = less.holds other)
    (hgreater : greater.holds order = greater.holds other) : order = other := by
  cases order <;> cases other <;> trivial

/-- The comparisons go by the order of the integers where rounding keeps it. -/
theorem holds_eq_iff (m n : Int) : (∀ c : Comparison, c.holds (c.orderOf m n) = c.holds (compare m n)) ↔
    m = n ∨ nearest m ≠ nearest n := by
  rw [← compare_nearest_iff]
  refine ⟨fun h => eq_of_holds (h .less) (h .greater), fun h c => ?_⟩
  cases c <;> simp only [orderOf, h]

/-- Of the strict comparisons and equality, one holds where rounding keeps the order of the integers. -/
theorem existsUnique_holds_iff (m n : Int) :
    (∃! c : Comparison, c ∈ [less, equal, greater] ∧ c.holds (c.orderOf m n) = true) ↔
      m = n ∨ nearest m ≠ nearest n := by
  have hless := holds_less_iff m n
  have hequal := holds_equal_iff m n
  have hgreater := holds_greater_iff m n
  have hsame : m = n → nearest m = nearest n := congrArg nearest
  simp only [List.mem_cons, List.not_mem_nil, or_false]
  constructor
  · rintro ⟨c, ⟨rfl | rfl | rfl, hc⟩, -⟩
    · rw [hless] at hc
      omega
    · exact .inl (hequal.mp hc)
    · rw [hgreater] at hc
      omega
  · intro h
    have hone : nearest m < nearest n ∨ m = n ∨ nearest n < nearest m := by omega
    rcases hone with h | h | h
    · refine ⟨less, ⟨.inl rfl, hless.mpr h⟩, ?_⟩
      rintro c ⟨rfl | rfl | rfl, hc⟩
      · rfl
      · rw [hequal] at hc
        omega
      · rw [hgreater] at hc
        omega
    · refine ⟨equal, ⟨.inr (.inl rfl), hequal.mpr h⟩, ?_⟩
      rintro c ⟨rfl | rfl | rfl, hc⟩
      · rw [hless] at hc
        omega
      · rfl
      · rw [hgreater] at hc
        omega
    · refine ⟨greater, ⟨.inr (.inr rfl), hgreater.mpr h⟩, ?_⟩
      rintro c ⟨rfl | rfl | rfl, hc⟩
      · rw [hless] at hc
        omega
      · rw [hequal] at hc
        omega
      · rfl

/-- Rounding does not turn integers round. -/
theorem lt_of_nearest_lt {m n : Int} (h : nearest m < nearest n) : m < n := by
  by_contra hle
  have := Number.nearest_mono (Int.not_lt.mp hle)
  omega

theorem holds_compare_of_holds {m n : Int} {c : Comparison} (hc : c ∈ [equal, notEqual, less, greater])
    (h : c.holds (c.orderOf m n) = true) : c.holds (compare m n) = true := by
  simp only [List.mem_cons, List.not_mem_nil, or_false] at hc
  rcases hc with rfl | rfl | rfl | rfl
  · exact h
  · exact h
  · rw [holds_less_iff] at h
    exact Ordering.isLT_iff_eq_lt.mpr (Int.compare_eq_lt.mpr (lt_of_nearest_lt h))
  · rw [holds_greater_iff] at h
    exact Ordering.isGT_iff_eq_gt.mpr (Int.compare_eq_gt.mpr (lt_of_nearest_lt h))

theorem holds_of_holds_compare {m n : Int} {c : Comparison} (hc : c ∈ [equal, notEqual, atMost, atLeast])
    (h : c.holds (compare m n) = true) : c.holds (c.orderOf m n) = true := by
  simp only [List.mem_cons, List.not_mem_nil, or_false] at hc
  rcases hc with rfl | rfl | rfl | rfl
  · exact h
  · exact h
  · exact Int.isLE_compare.mpr (Number.nearest_mono (Int.isLE_compare.mp h))
  · exact Int.isGE_compare.mpr (Number.nearest_mono (Int.isGE_compare.mp h))

end Comparison

/-- What the comparisons of two integers say. -/
structure IntegersCompared (a : Accessor) (m n : Int64) (x y current : Datum) : Prop where
  /-- Equality goes by the integers and the others by the integers rounded to doubles. -/
  result : ∀ c : Comparison,
    binary a c.operator x y current = .ok (.ofBool (c.holds (c.orderOf m.toInt n.toInt)) current)
  /-- An operation of two operands that are evaluated to the integers has this result. -/
  evaluated : ∀ (env : Env) (scope : Scope) (c : Comparison) (root left right : NodeId) (receiver : Datum)
    (fuel : Nat) (s s' s'' : State), scope.kind? root = some (.operation c.operator [left, right]) →
    run env fuel (.expression scope left receiver current) s = (.ok x, s') →
    run env fuel (.expression scope right receiver current) s' = (.ok y, s'') →
    run env (fuel + 1) (.expression scope root receiver current) s =
      (.ok (.ofBool (c.holds (c.orderOf m.toInt n.toInt)) current), s'')
  /-- The comparisons go by the integers themselves if these are equal or rounded to different doubles. -/
  exact_iff : (∀ c : Comparison,
      binary a c.operator x y current = .ok (.ofBool (c.holds (compare m.toInt n.toInt)) current)) ↔
    m = n ∨ nearest m.toInt ≠ nearest n.toInt
  /-- Otherwise the integers are neither less nor equal nor greater. -/
  one_iff : (∃! c : Comparison, c ∈ [.less, .equal, .greater] ∧
      binary a c.operator x y current = .ok (.ofBool true current)) ↔
    m = n ∨ nearest m.toInt ≠ nearest n.toInt
  /-- What is less or greater is so as an integer. -/
  sound : ∀ c : Comparison, c ∈ [.equal, .notEqual, .less, .greater] →
    binary a c.operator x y current = .ok (.ofBool true current) → c.holds (compare m.toInt n.toInt) = true
  /-- Integers that are at most or at least another one are found to be so. -/
  complete : ∀ c : Comparison, c ∈ [.equal, .notEqual, .atMost, .atLeast] →
    c.holds (compare m.toInt n.toInt) = true → binary a c.operator x y current = .ok (.ofBool true current)
  /-- Of integers with at most 53 digits all comparisons are exact. -/
  small : m.toInt.natAbs ≤ 2 ^ 53 → n.toInt.natAbs ≤ 2 ^ 53 → ∀ c : Comparison,
    binary a c.operator x y current = .ok (.ofBool (c.holds (compare m.toInt n.toInt)) current)

/-- Two integers are compared exactly where they are equal or rounded to different doubles. -/
theorem integers_compared (a : Accessor) (m n : Int64) (p q current : Datum) :
    IntegersCompared a m n (p.with (.scalar (.int m))) (q.with (.scalar (.int n))) current where
  result c := binary_ints a m n p q current c
  evaluated env scope c root left right receiver fuel s s' s'' hkind hleft hright :=
    run_comparison m n p q current hkind hleft hright
  exact_iff := by
    simp only [binary_ints_iff]
    rw [Comparison.holds_eq_iff, Int64.toInt_inj]
  one_iff := by
    simp only [binary_ints_iff]
    rw [Comparison.existsUnique_holds_iff, Int64.toInt_inj]
  sound c hc h := by
    rw [binary_ints_iff] at h
    exact Comparison.holds_compare_of_holds hc h
  complete c hc h := by
    rw [binary_ints_iff]
    exact Comparison.holds_of_holds_compare hc h
  small hm hn := by
    simp only [binary_ints_iff]
    rw [Comparison.holds_eq_iff, Number.nearest_eq_self hm, Number.nearest_eq_self hn]
    exact Decidable.em _

/-- The integers `2 ^ 53` and `2 ^ 53 + 1` are rounded to one double, so the first one is not found to be less. -/
theorem less_not_exact : ¬ ∀ (a : Accessor) (m n : Int64) (p q current : Datum) (c : Comparison),
    binary a c.operator (p.with (.scalar (.int m))) (q.with (.scalar (.int n))) current =
      .ok (.ofBool (c.holds (compare m.toInt n.toInt)) current) := by
  intro h
  have hless := h { model := {} } 9007199254740992 9007199254740993 (.root 0) (.root 0) (.root 0) .less
  rw [binary_ints_iff] at hless
  exact absurd hless (by decide +kernel)

end ModelText.Evaluation
