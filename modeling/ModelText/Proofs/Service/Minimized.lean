import ModelText.Proofs.Value.Distinct

/-!
# Lists freed of equal items

The service that frees a list of equal items keeps the others in their order. Whether two items are equal may depend
on their order, and equality need not be transitive; what is left out is equal to an item that is kept in front of it,
and nothing more is left out when the service is asked again.
-/

namespace ModelText.Service

/-- How a list relates to the items that it was made of by leaving out equal ones. -/
structure Minimized (a : Accessor) (items : List Item) (m : ItemList) : Prop where
  /-- The items that are left are in order. -/
  sublist : m.items.Sublist items
  /-- The items left out are equal to ones kept in front of them, and those are not equal to one another. -/
  reduction : ∃ kept, Reduction (Scalar.equal a) items m.items kept

theorem minimized_collect (a : Accessor) (d : Datum) : Minimized a (itemsOf d).items (collect a true (valuesOf d)) := by
  rw [collect_unique]
  exact ⟨distinctBy_sublist _, exists_reduction _⟩

/-- What a list has left is left of it again. -/
theorem collect_of_minimized {a : Accessor} {items : List Item} {m : ItemList} (h : Minimized a items m)
    (hunique : m.unique = true) (d : Datum) : collect a true (valuesOf (d.with (.list m))) = m := by
  obtain ⟨kept, hkept⟩ := h.reduction
  have hdistinct : Distinct (Scalar.equal a) ([] ++ m.items) := hkept.distinct
  rw [collect_unique]
  change ItemList.mk (distinctBy _ [] m.items) true = m
  rw [hdistinct.distinctBy_eq, ← hunique]
  rfl

/-- A list is freed of equal items, and this list has none that could be left out. -/
theorem minimize_minimizes (a : Accessor) (l : ItemList) (receiver : Datum) : ∃ service m,
    builtins.find? "nMinimize" 0 = some service ∧
    service.run a (receiver.with (.list l)) [] = .ok (.ofList m receiver) ∧ Minimized a l.items m ∧
    ∀ other : Datum, service.run a (other.with (.list m)) [] = .ok (.ofList m other) := by
  have hminimized := minimized_collect a (receiver.with (.list l))
  refine ⟨_, _, rfl, rfl, hminimized, fun other => ?_⟩
  have hagain := collect_of_minimized hminimized (by rw [collect_unique]) other
  exact congrArg (fun m => Except.ok (Datum.ofList m other)) hagain

end ModelText.Service
