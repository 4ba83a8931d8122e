import ModelText.Proofs.Value.Texts

/-!
# Texts in the results of services

Every service that all scripts see keeps a `TextClass`: it cuts, rewords and indents the texts that it
is given, takes items out of its lists and makes new texts, and it does nothing else to texts.
-/

namespace ModelText

/-- From values whose texts satisfy `P` the service makes such a value. -/
def Service.Preserves (P : TracedText → Prop) (service : Service) : Prop :=
  ∀ a d args out, Datum.All P d → (∀ arg ∈ args, Datum.All P arg) →
    service.run a d args = .ok out → Datum.All P out

namespace Service

variable {P : TracedText → Prop}

theorem textOf_of_all (hP : TextClass P) {d : Datum} (hd : Datum.All P d) : P (textOf d) := by
  obtain ⟨value, _, _, _⟩ := d
  cases value with
  | list l => exact hP.ofString _ _ _
  | scalar s => cases s <;> first | exact hd | exact hP.ofString _ _ _

theorem itemsOf_of_all {d : Datum} (hd : Datum.All P d) : (itemsOf d).All P := by
  obtain ⟨value, _, _, _⟩ := d
  cases value with
  | list l => exact hd
  | scalar s => exact ItemList.all_empty false

theorem valuesOf_of_all {d : Datum} (hd : Datum.All P d) : ∀ v ∈ valuesOf d, Datum.All P v := by
  intro v hv
  obtain ⟨item, hitem, rfl⟩ := List.mem_map.mp hv
  exact itemsOf_of_all hd item hitem

theorem all_collect (a : Accessor) (unique : Bool) {values : List Datum}
    (h : ∀ v ∈ values, Datum.All P v) : (collect a unique values).All P := by
  have hfold (l : ItemList) (hl : l.All P) : (values.foldl (·.pushDatum a ·) l).All P := by
    induction values generalizing l with
    | nil => exact hl
    | cons v rest ih =>
      exact ih (fun w hw => h w (by simp [hw])) _ (hl.pushDatum a (h v (by simp)))
  exact hfold _ (ItemList.all_empty unique)

theorem mem_separated {separator v : Datum} {values : List Datum}
    (h : v ∈ separated separator values) : v = separator ∨ v ∈ values := by
  induction values with
  | nil => cases h
  | cons d rest ih =>
    cases rest with
    | nil => exact Or.inr h
    | cons next rest =>
      simp only [separated, List.mem_cons] at h
      rcases h with rfl | rfl | h
      · exact Or.inr (by simp)
      · exact Or.inl rfl
      · rcases ih h with h | h
        · exact Or.inl h
        · exact Or.inr (List.mem_cons_of_mem _ h)

theorem all_substring (hP : TextClass P) {d out : Datum} {start : Int64} {stop : Option Int64}
    (hd : Datum.All P d) (h : substring d start stop = .ok out) : Datum.All P out := by
  have hslice {m n : Nat} (hm : Text.IsBoundary (textOf d).value.toList m)
      (hn : Text.IsBoundary (textOf d).value.toList n) :
      P ((textOf d).slice (Span.ordered m n)) :=
    hP.slice (textOf_of_all hP hd) (hm.isCut hn)
  unfold substring at h
  dsimp only at h
  cases hfirst : offsetOf? (textOf d).value start with
  | none => rw [hfirst] at h; cases h
  | some first =>
    rw [hfirst] at h
    have hfirst := isBoundary_of_offsetOf? hfirst
    cases stop with
    | none =>
      cases h
      exact hslice hfirst (Text.byteCount_toList _ ▸ .size)
    | some stop =>
      dsimp only at h
      cases hlast : offsetOf? (textOf d).value stop with
      | none => rw [hlast] at h; cases h
      | some last =>
        rw [hlast] at h
        dsimp only at h
        split at h
        · cases h
        · cases h
          exact hslice hfirst (isBoundary_of_offsetOf? hlast)

theorem all_split (hP : TextClass P) {d out : Datum} {separator : String}
    (hd : Datum.All P d) (h : split d separator = .ok out) : Datum.All P out := by
  unfold split at h
  split at h
  · cases h
  · cases h
    intro item hitem
    obtain ⟨span, hspan, rfl⟩ := List.mem_map.mp hitem
    have hcut : Text.IsCut ([] ++ (textOf d).value.toList) span := isCut_of_mem_partsFrom hspan
    exact hP.slice (textOf_of_all hP hd) hcut

theorem all_objects (a : Accessor) (d : Datum) (ids : List ObjectId) :
    Datum.All P (objects a d ids) := by
  refine all_collect a false fun v hv => ?_
  obtain ⟨id, -, rfl⟩ := List.mem_map.mp hv
  trivial

theorem preserves_onTexts (hP : TextClass P) : ∀ service ∈ onTexts, service.Preserves P := by
  have hedit {name : String} {f : TracedText → TracedText} (hf : ∀ t, P t → P (f t)) :
      Service.Preserves P
        { name, signature := ⟨.text, [], .text⟩, run := fun _ d _ => .ok (withText d f) } := by
    intro a d args out hd _ hout
    cases hout
    exact hf _ (textOf_of_all hP hd)
  intro service hservice
  simp only [onTexts, List.mem_cons, List.not_mem_nil, or_false] at hservice
  rcases hservice with rfl | rfl | rfl | rfl | rfl | rfl | rfl | rfl | rfl | rfl | rfl | rfl | rfl |
    rfl
  · exact hedit fun t ht => hP.reword _ ht
  · exact hedit fun t ht => hP.reword _ ht
  · exact hedit fun t ht => hP.reword _ ht
  · exact hedit fun t ht => hP.reword _ ht
  · exact hedit fun t ht => hP.slice ht (Text.isCut_trimSpan _)
  · exact hedit fun t ht => hP.indentLines _ _ ht
  · exact hedit fun t ht => hP.indentLines _ _ ht
  · intro a d args out hd _ hout
    dsimp only at hout
    exact all_substring hP hd hout
  · intro a d args out hd _ hout
    dsimp only at hout
    exact all_substring hP hd hout
  · intro a d args out _ _ hout
    cases hout
    trivial
  · intro a d args out _ _ hout
    cases hout
    trivial
  · intro a d args out _ _ hout
    cases hout
    trivial
  · intro a d args out _ _ hout
    cases hout
    trivial
  · exact fun a d args out hd _ hout => all_split hP hd hout

theorem preserves_onLists (hP : TextClass P) : ∀ service ∈ onLists, service.Preserves P := by
  have hitem {d : Datum} {found : Option Item} (hd : Datum.All P d)
      (hfound : ∀ item, found = some item → item ∈ (itemsOf d).items) :
      Datum.All P ((found.map Traced.toDatum).getD (Datum.null d)) := by
    cases found with
    | none => trivial
    | some item => exact itemsOf_of_all hd item (hfound item rfl)
  intro service hservice
  simp only [onLists, List.mem_cons, List.not_mem_nil, or_false] at hservice
  rcases hservice with rfl | rfl | rfl | rfl | rfl | rfl | rfl | rfl
  · intro a d args out _ _ hout
    cases hout
    trivial
  · intro a d args out hd _ hout
    cases hout
    exact hitem hd fun item h => List.mem_of_head? h
  · intro a d args out hd _ hout
    cases hout
    exact hitem hd fun item h => List.mem_of_getLast? h
  · intro a d args out hd _ hout
    cases hout
    refine hitem hd fun item h => ?_
    split at h
    · exact List.mem_of_getElem? h
    · cases h
  · intro a d args out hd _ hout
    cases hout
    exact all_collect a false fun v hv => valuesOf_of_all hd v (List.mem_reverse.mp hv)
  · intro a d args out hd _ hout
    cases hout
    exact all_collect a true (valuesOf_of_all hd)
  · intro a d args out _ _ hout
    cases hout
    trivial
  · intro a d args out hd hargs hout
    cases hout
    refine all_collect a false fun v hv => ?_
    rcases mem_separated hv with rfl | hv
    · cases args with
      | nil => exact hP.ofString _ _ _
      | cons separator rest => exact hargs separator (by simp)
    · exact valuesOf_of_all hd v hv

theorem preserves_onObjects (hP : TextClass P) : ∀ service ∈ onObjects, service.Preserves P := by
  intro service hservice
  simp only [onObjects, List.mem_cons, List.not_mem_nil, or_false] at hservice
  rcases hservice with rfl | rfl | rfl | rfl | rfl | rfl
  · intro a d args out _ _ hout
    dsimp only at hout
    split at hout <;> cases hout <;> trivial
  · intro a d args out _ _ hout
    cases hout
    exact all_objects a d _
  · intro a d args out _ _ hout
    cases hout
    exact all_objects a d _
  · intro a d args out _ _ hout
    cases hout
    exact all_objects a d _
  · intro a d args out _ _ hout
    cases hout
    exact hP.ofString _ _ _
  · intro a d args out hd _ hout
    dsimp only at hout
    split at hout <;> cases hout
    · exact hd
    · trivial

/-- The services that every script sees keep a property of texts. -/
theorem preserves_builtins (hP : TextClass P) :
    ∀ service ∈ builtins.services, service.Preserves P := by
  intro service hservice
  simp only [builtins, List.mem_append] at hservice
  rcases hservice with (h | h) | h
  · exact preserves_onTexts hP service h
  · exact preserves_onLists hP service h
  · exact preserves_onObjects hP service h

end Service

end ModelText
