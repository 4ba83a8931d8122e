import ModelText.Proofs.Service.Builtin
import ModelText.Proofs.Value.Objects

/-!
# Objects in the results of services

Every service that all scripts see answers objects of its receiver and its arguments, or objects that the
containment of the model leads to from there.
-/

namespace ModelText

variable {O : ObjectId → Prop} {a : Accessor}

/-- For values whose objects are in `O` the service answers such a value. -/
def Service.StaysWithin (service : Service) (a : Accessor) (O : ObjectId → Prop) : Prop :=
  ∀ d args out, Datum.Within O d → (∀ arg ∈ args, Datum.Within O arg) → service.run a d args = .ok out →
    Datum.Within O out

/-- What is below an object is where the containment leads to. -/
theorem Accessor.Encloses.contentsBelow (ha : a.Encloses O) (fuel : Nat) {object id : ObjectId}
    (hobject : O object) (h : id ∈ a.contentsBelow fuel object) : O id := by
  induction fuel generalizing object with
  | zero => cases h
  | succ fuel ih =>
    obtain ⟨child, hchild, hid⟩ := List.mem_flatMap.mp h
    have hchild := ha.children hobject hchild
    rcases List.mem_cons.mp hid with rfl | hid
    · exact hchild
    · exact ih hchild hid

namespace Service

theorem within_itemsOf {d : Datum} (hd : d.Within O) : (itemsOf d).Within O := by
  obtain ⟨value, _, _, _⟩ := d
  cases value with
  | list l => exact hd
  | scalar s => exact ItemList.within_empty false

theorem within_valuesOf {d : Datum} (hd : d.Within O) : ∀ v ∈ valuesOf d, Datum.Within O v := by
  intro v hv
  obtain ⟨item, hitem, rfl⟩ := List.mem_map.mp hv
  exact within_itemsOf hd item hitem

theorem within_collect (a : Accessor) (unique : Bool) {values : List Datum}
    (h : ∀ v ∈ values, Datum.Within O v) : (collect a unique values).Within O := by
  have hfold (l : ItemList) (hl : l.Within O) : (values.foldl (·.pushDatum a ·) l).Within O := by
    induction values generalizing l with
    | nil => exact hl
    | cons v rest ih =>
      exact ih (fun w hw => h w (by simp [hw])) _ (hl.pushDatum a (h v (by simp)))
  exact hfold _ (ItemList.within_empty unique)

theorem within_objects (a : Accessor) (d : Datum) {ids : List ObjectId} (h : ∀ id ∈ ids, O id) :
    Datum.Within O (objects a d ids) := by
  refine within_collect a false fun v hv => ?_
  obtain ⟨id, hid, rfl⟩ := List.mem_map.mp hv
  exact h id hid

theorem mem_contentsOf (ha : a.Encloses O) {d : Datum} (hd : d.Within O) : ∀ id ∈ contentsOf a d, O id := by
  intro id hid
  unfold contentsOf at hid
  cases hobject : d.value.object? with
  | none =>
    rw [hobject] at hid
    cases hid
  | some object =>
    rw [hobject] at hid
    exact ha.contentsBelow _ (hd.object hobject) hid

/-- No service on texts answers an object. -/
theorem staysWithin_onTexts : ∀ service ∈ onTexts, service.StaysWithin a O := by
  intro service hservice
  simp only [onTexts, List.mem_cons, List.not_mem_nil, or_false] at hservice
  rcases hservice with rfl | rfl | rfl | rfl | rfl | rfl | rfl | rfl | rfl | rfl | rfl | rfl | rfl | rfl
  case inr.inr.inr.inr.inr.inr.inr.inr.inr.inr.inr.inr.inr =>
    intro d args out _ _ hout
    dsimp only at hout
    unfold split at hout
    split at hout
    · cases hout
    · cases hout
      intro item hitem
      obtain ⟨span, -, rfl⟩ := List.mem_map.mp hitem
      trivial
  case inr.inr.inr.inr.inr.inr.inr.inl | inr.inr.inr.inr.inr.inr.inr.inr.inl =>
    intro d args out _ _ hout
    dsimp only at hout
    unfold substring at hout
    dsimp only at hout
    repeat' split at hout
    all_goals cases hout
    all_goals trivial
  all_goals
    intro d args out _ _ hout
    cases hout
    trivial

theorem staysWithin_onLists : ∀ service ∈ onLists, service.StaysWithin a O := by
  have hitem {d : Datum} {found : Option Item} (hd : d.Within O)
      (hfound : ∀ item, found = some item → item ∈ (itemsOf d).items) :
      Datum.Within O ((found.map Traced.toDatum).getD (Datum.null d)) := by
    cases found with
    | none => trivial
    | some item => exact within_itemsOf hd item (hfound item rfl)
  intro service hservice
  simp only [onLists, List.mem_cons, List.not_mem_nil, or_false] at hservice
  rcases hservice with rfl | rfl | rfl | rfl | rfl | rfl | rfl | rfl
  · intro d args out _ _ hout
    cases hout
    trivial
  · intro d args out hd _ hout
    cases hout
    exact hitem hd fun item h => List.mem_of_head? h
  · intro d args out hd _ hout
    cases hout
    exact hitem hd fun item h => List.mem_of_getLast? h
  · intro d args out hd _ hout
    cases hout
    refine hitem hd fun item h => ?_
    split at h
    · exact List.mem_of_getElem? h
    · cases h
  · intro d args out hd _ hout
    cases hout
    exact within_collect a false fun v hv => within_valuesOf hd v (List.mem_reverse.mp hv)
  · intro d args out hd _ hout
    cases hout
    exact within_collect a true (within_valuesOf hd)
  · intro d args out _ _ hout
    cases hout
    trivial
  · intro d args out hd hargs hout
    cases hout
    refine within_collect a false fun v hv => ?_
    rcases mem_separated hv with rfl | hv
    · cases args with
      | nil => trivial
      | cons separator rest => exact hargs separator (by simp)
    · exact within_valuesOf hd v hv

theorem staysWithin_onObjects (ha : a.Encloses O) : ∀ service ∈ onObjects, service.StaysWithin a O := by
  intro service hservice
  simp only [onObjects, List.mem_cons, List.not_mem_nil, or_false] at hservice
  rcases hservice with rfl | rfl | rfl | rfl | rfl | rfl
  · intro d args out hd _ hout
    dsimp only at hout
    split at hout
    · next parent hparent =>
      cases hout
      obtain ⟨object, hobject, hparent⟩ := Option.bind_eq_some_iff.mp hparent
      exact ha.parent (hd.object hobject) hparent
    · cases hout
      trivial
  · intro d args out hd _ hout
    cases hout
    refine within_objects a d fun id hid => ?_
    cases hobject : d.value.object? with
    | none =>
      rw [hobject] at hid
      cases hid
    | some object =>
      rw [hobject] at hid
      exact ha.children (hd.object hobject) hid
  · intro d args out hd _ hout
    cases hout
    exact within_objects a d (mem_contentsOf ha hd)
  · intro d args out hd _ hout
    cases hout
    exact within_objects a d fun id hid => mem_contentsOf ha hd id (List.mem_filter.mp hid).1
  · intro d args out _ _ hout
    cases hout
    trivial
  · intro d args out hd _ hout
    dsimp only at hout
    split at hout
    · cases hout
      exact hd
    · cases hout
      trivial

/-- The services that every script sees answer no other objects than the model leads to. -/
theorem staysWithin_builtins (ha : a.Encloses O) : ∀ service ∈ builtins.services, service.StaysWithin a O := by
  intro service hservice
  simp only [builtins, List.mem_append] at hservice
  rcases hservice with (h | h) | h
  · exact staysWithin_onTexts service h
  · exact staysWithin_onLists service h
  · exact staysWithin_onObjects ha service h

end Service

end ModelText
