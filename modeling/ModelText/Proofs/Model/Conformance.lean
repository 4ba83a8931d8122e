import Mathlib.Algebra.BigOperators.Group.Finset.Basic
import Mathlib.Data.Set.Finite.Basic
import Mathlib.Logic.Function.Iterate
import ModelText.Proofs.Model.Hierarchy

/-!
# The test for conformance

A type conforms to those that are reached from it over supertypes. The test looks for such a type breadth first, by
rounds that each take one type off a queue. It ends as soon as finitely many types are reached, whatever cycles,
repetitions and undeclared types there are: each type puts its supertypes into the queue once.
-/

namespace ModelText

/-- The second type is the first one, or is reached from it over supertypes. -/
def Above (supertypes : String → List String) : String → String → Prop :=
  Relation.ReflTransGen fun typeName above => above ∈ supertypes typeName

/-- A search for a type: under way, with the types that were seen and those in the queue, or ended. -/
inductive TypeSearch where
  | going (seen queue : List String)
  | ended (found : Bool)

namespace TypeSearch

/-- The search that starts with one type in the queue. -/
def start (typeName : String) : TypeSearch := .going [] [typeName]

/-- One round of the search for `expected`: the first type of the queue is compared, and when it was not seen before
its supertypes enter the queue. -/
def next (supertypes : String → List String) (expected : String) : TypeSearch → TypeSearch
  | .ended found => .ended found
  | .going _ [] => .ended false
  | .going seen (current :: queue) =>
    if current = expected then .ended true
    else if seen.contains current then .going seen queue
    else .going (current :: seen) (queue ++ supertypes current)

variable {supertypes : String → List String} {typeName expected current : String} {seen queue : List String}
  {found : Bool} {rounds : Nat}

theorem next_cons : next supertypes expected (.going seen (current :: queue)) =
    if current = expected then .ended true
    else if seen.contains current then .going seen queue
    else .going (current :: seen) (queue ++ supertypes current) := rfl

theorem iterate_ended (rounds : Nat) : (next supertypes expected)^[rounds] (.ended found) = .ended found :=
  Function.iterate_fixed rfl rounds

/-! ## What is known while the search goes on -/

/-- The types in the queue are above the first one. The types that were seen are others than the expected one, and
their supertypes were seen or are in the queue. -/
structure Known (supertypes : String → List String) (typeName expected : String) (seen queue : List String) : Prop where
  first : typeName ∈ seen ∨ typeName ∈ queue
  above : ∀ own ∈ queue, Above supertypes typeName own
  other : ∀ own ∈ seen, own ≠ expected
  closed : ∀ own ∈ seen, ∀ above ∈ supertypes own, above ∈ seen ∨ above ∈ queue

theorem known_start : Known supertypes typeName expected [] [typeName] :=
  ⟨.inr List.mem_cons_self, fun _ hown => List.mem_singleton.mp hown ▸ .refl, nofun, nofun⟩

namespace Known

/-- A type that was seen before is left out. -/
theorem skip (h : Known supertypes typeName expected seen (current :: queue)) (hseen : current ∈ seen) :
    Known supertypes typeName expected seen queue := by
  have hkept {own : String} (hown : own ∈ seen ∨ own ∈ current :: queue) : own ∈ seen ∨ own ∈ queue := by
    rcases hown with hold | hqueued
    · exact .inl hold
    · rcases List.mem_cons.mp hqueued with rfl | hlater
      · exact .inl hseen
      · exact .inr hlater
  exact ⟨hkept h.first, fun own hown => h.above own (List.mem_cons_of_mem _ hown), h.other,
    fun own hown above habove => hkept (h.closed own hown above habove)⟩

/-- A new type other than the expected one is seen, and its supertypes enter the queue. -/
theorem enter (h : Known supertypes typeName expected seen (current :: queue)) (hother : current ≠ expected) :
    Known supertypes typeName expected (current :: seen) (queue ++ supertypes current) := by
  have hkept {own : String} (hown : own ∈ seen ∨ own ∈ current :: queue) :
      own ∈ current :: seen ∨ own ∈ queue ++ supertypes current := by
    rcases hown with hold | hqueued
    · exact .inl (List.mem_cons_of_mem _ hold)
    · rcases List.mem_cons.mp hqueued with rfl | hlater
      · exact .inl List.mem_cons_self
      · exact .inr (List.mem_append_left _ hlater)
  refine ⟨hkept h.first, fun own hown => ?_, List.forall_mem_cons.mpr ⟨hother, h.other⟩, fun own hown above habove => ?_⟩
  · rcases List.mem_append.mp hown with hqueued | habove
    · exact h.above own (List.mem_cons_of_mem _ hqueued)
    · exact .tail (h.above current List.mem_cons_self) habove
  · rcases List.mem_cons.mp hown with rfl | hold
    · exact .inr (List.mem_append_right _ habove)
    · exact hkept (h.closed own hold above habove)

/-- With an empty queue all types above were seen, so the expected one is not among them. -/
theorem not_above (h : Known supertypes typeName expected seen []) : ¬ Above supertypes typeName expected := by
  intro habove
  have hseen {own : String} (hown : own ∈ seen ∨ own ∈ []) : own ∈ seen := hown.resolve_right List.not_mem_nil
  have hall {own : String} (hown : Above supertypes typeName own) : own ∈ seen := by
    induction hown with
    | refl => exact hseen h.first
    | tail _ hstep ih => exact hseen (h.closed _ ih _ hstep)
  exact h.other expected (hall habove) rfl

/-- The search ends with the right answer. `budget` bounds the types that may still enter the queue: a type that is
seen spends as many as it has supertypes. -/
theorem ends {budget : List String → Nat}
    (hbudget : ∀ own seen, Above supertypes typeName own → own ∉ seen →
      budget (own :: seen) + (supertypes own).length ≤ budget seen)
    (h : Known supertypes typeName expected seen queue) (hrounds : queue.length + budget seen < rounds) :
    ∃ found, (next supertypes expected)^[rounds] (.going seen queue) = .ended found ∧
      (found = true ↔ Above supertypes typeName expected) := by
  induction rounds generalizing seen queue with
  | zero => omega
  | succ rounds ih =>
    rw [Function.iterate_succ_apply]
    cases queue with
    | nil => exact ⟨false, iterate_ended rounds, iff_of_false Bool.false_ne_true h.not_above⟩
    | cons current queue =>
      have habove := h.above current List.mem_cons_self
      rw [List.length_cons] at hrounds
      rw [next_cons]
      split
      · next heq => exact ⟨true, iterate_ended rounds, iff_of_true rfl (heq ▸ habove)⟩
      next hother =>
      split
      · next hseen => exact ih (h.skip (List.contains_iff_mem.mp hseen)) (by omega)
      · next hnew =>
        have hspent := hbudget current seen habove (mt List.contains_iff_mem.mpr hnew)
        exact ih (h.enter hother) (by rw [List.length_append]; omega)

end Known

/-- The number of supertypes that the types of a finite set may still put into the queue. -/
def unspent (supertypes : String → List String) (types : Finset String) (seen : List String) : Nat :=
  ∑ own ∈ types.filter (· ∉ seen), (supertypes own).length

theorem unspent_cons {types : Finset String} (hmem : current ∈ types) (hnew : current ∉ seen) :
    unspent supertypes types (current :: seen) + (supertypes current).length = unspent supertypes types seen := by
  have hunseen : current ∈ types.filter (· ∉ seen) := Finset.mem_filter.mpr ⟨hmem, hnew⟩
  have hrest : types.filter (· ∉ current :: seen) = (types.filter (· ∉ seen)).erase current := by
    ext own
    simp only [Finset.mem_filter, Finset.mem_erase, List.mem_cons, not_or]
    exact and_left_comm
  rw [unspent, hrest, Finset.sum_erase_add _ _ hunseen, unspent]

/-- The search ends with the right answer when finitely many types are reached. -/
theorem ends_of_finite (hfinite : {above | Above supertypes typeName above}.Finite) :
    ∃ rounds found, (next supertypes expected)^[rounds] (.start typeName) = .ended found ∧
      (found = true ↔ Above supertypes typeName expected) := by
  have hbudget (own : String) (seen : List String) (habove : Above supertypes typeName own) (hnew : own ∉ seen) :
      unspent supertypes hfinite.toFinset (own :: seen) + (supertypes own).length ≤
        unspent supertypes hfinite.toFinset seen :=
    Nat.le_of_eq (unspent_cons (hfinite.mem_toFinset.mpr habove) hnew)
  exact ⟨_, known_start.ends hbudget (Nat.lt_succ_self _)⟩

end TypeSearch

namespace Accessor

variable {a : Accessor} {typeName expected : String} {seen queue : List String} {fuel : Nat}

/-- A model declares finitely many types. -/
theorem finite_above (a : Accessor) (typeName : String) : {above | Above a.supertypes typeName above}.Finite :=
  (a.preorder [] typeName).finite_toSet.subset fun _ habove => mem_preorder_iff.mpr habove

/-- The number of supertypes that may still enter the queue. -/
def unqueued (a : Accessor) (seen : List String) : Nat :=
  (a.model.types.map fun entry => if entry.1 ∈ seen then 0 else entry.2.length).sum

/-- Each type moves its supertypes from the declarations to the queue once. -/
theorem unqueued_cons (hnew : typeName ∉ seen) :
    a.unqueued (typeName :: seen) + (a.supertypes typeName).length ≤ a.unqueued seen := by
  unfold unqueued supertypes
  induction a.model.types with
  | nil => exact Nat.le_refl 0
  | cons entry rest ih =>
    obtain ⟨own, above⟩ := entry
    have hle : (rest.map fun entry => if entry.1 ∈ typeName :: seen then 0 else entry.2.length).sum ≤
        (rest.map fun entry => if entry.1 ∈ seen then 0 else entry.2.length).sum := by omega
    rw [List.map_cons, List.map_cons, List.sum_cons, List.sum_cons, List.lookup_cons]
    by_cases heq : typeName = own
    · subst heq
      rw [if_pos List.mem_cons_self, if_neg hnew, beq_self_eq_true]
      dsimp only [Option.getD_some]
      omega
    · have hsame : (own ∈ typeName :: seen) = (own ∈ seen) := by simp [Ne.symm heq]
      rw [beq_false_of_ne heq]
      simp only [hsame]
      omega

/-- The test goes by the rounds of the search, one for each unit of fuel. -/
theorem conformsFrom_eq_true_iff : a.conformsFrom expected fuel seen queue = true ↔
    (TypeSearch.next a.supertypes expected)^[fuel] (.going seen queue) = .ended true := by
  induction fuel generalizing seen queue with
  | zero => exact iff_of_false Bool.false_ne_true nofun
  | succ fuel ih =>
    rw [Function.iterate_succ_apply]
    cases queue with
    | nil =>
      refine iff_of_false Bool.false_ne_true fun h => ?_
      cases (TypeSearch.iterate_ended fuel).symm.trans h
    | cons current queue =>
      rw [conformsFrom, TypeSearch.next_cons]
      split
      · exact iff_of_true rfl (TypeSearch.iterate_ended fuel)
      split
      · exact ih
      · exact ih

/-- The test has fuel enough for the search to end. -/
theorem exists_iterate_eq_typeConforms (a : Accessor) (typeName expected : String) :
    ∃ rounds, (TypeSearch.next a.supertypes expected)^[rounds] (.start typeName) =
        .ended (a.typeConforms typeName expected) ∧
      (a.typeConforms typeName expected = true ↔ a.Inherits typeName expected) := by
  have hbound : [typeName].length + a.unqueued [] <
      a.model.types.foldl (fun total (entry : String × List String) => total + entry.2.length) 0 + 2 := by
    have hsum : a.unqueued [] = (a.model.types.map fun entry => entry.2.length).sum := by simp [unqueued]
    rw [← List.foldl_map, ← List.sum_eq_foldl, hsum, List.length_singleton]
    omega
  have hstart : TypeSearch.Known a.supertypes typeName expected [] [typeName] := TypeSearch.known_start
  obtain ⟨found, hend, hfound⟩ := hstart.ends (fun _ _ _ hnew => unqueued_cons hnew) hbound
  have htest : a.typeConforms typeName expected = found := by
    rw [Bool.eq_iff_iff, typeConforms, conformsFrom_eq_true_iff, hend, TypeSearch.ended.injEq]
  exact ⟨_, htest ▸ hend, htest ▸ hfound⟩

/-- The test for conformance tells whether a type is above another one. -/
theorem typeConforms_iff : a.typeConforms typeName expected = true ↔ a.Inherits typeName expected := by
  obtain ⟨-, -, hiff⟩ := exists_iterate_eq_typeConforms a typeName expected
  exact hiff

end Accessor

end ModelText
