import ModelText.Proofs.Trace.Coverage

/-!
# The object of an offset

The target of an offset is that of the entry around it that outranks all others around it: the
narrowest one, of equally narrow ones the one that starts last, and at one place the greatest target.
-/

namespace ModelText.Trace

section Existence

variable {T : Type} [DecidableEq T] [Ord T] {t : Trace T}

omit [DecidableEq T] in
theorem isSome_foldl_narrowest (entries : List (Span × T)) (offset : Nat)
    (best : Option (Span × T)) :
    (entries.foldl (fun best entry =>
      if entry.1.contains offset && best.all (outranks entry) then some entry else best)
        best).isSome ↔ best.isSome ∨ ∃ entry ∈ entries, offset ∈ entry.1 := by
  induction entries generalizing best with
  | nil => simp
  | cons entry rest ih =>
    rw [List.foldl_cons, ih]
    simp only [List.mem_cons, exists_eq_or_imp, ← Span.contains_iff]
    cases best with
    | none => cases hc : entry.1.contains offset <;> simp
    | some other =>
      simp only [Option.isSome_some, true_or, iff_true]
      split <;> simp

/-- An offset has a target when some target is mapped to it once the trace is committed. -/
theorem isSome_targetAt?_iff (h : t.WellFormed) {offset : Nat} :
    (t.targetAt? offset).isSome ↔ ∃ target, t.commit.Covers target offset := by
  rw [targetAt?, Option.isSome_map, narrowest?, isSome_foldl_narrowest]
  simp only [h.commit.covers_iff, Option.isSome_none, Bool.false_eq_true, false_or]
  constructor
  · rintro ⟨entry, hentry, hmem⟩
    exact ⟨entry.2, entry, hentry, rfl, hmem⟩
  · rintro ⟨target, entry, hentry, -, hmem⟩
    exact ⟨entry, hentry, hmem⟩

theorem targetAt?_eq_none_iff (h : t.WellFormed) :
    t.targetAt? offset = none ↔ ∀ target, ∀ s ∈ t.spansOf target, offset ∉ s := by
  rw [← Option.not_isSome_iff_eq_none, isSome_targetAt?_iff h, not_exists]
  simp only [Covers, Ranges.Covers, not_exists, not_and, spansOf]

theorem targetAt?_commit (t : Trace T) (offset : Nat) :
    t.commit.targetAt? offset = t.targetAt? offset := by
  rw [targetAt?, targetAt?, commit_commit]

end Existence

/-! ## The entry that outranks the others -/

section Ranking

variable {T : Type} [DecidableEq T] [Ord T] {entries : List (Span × T)} {offset : Nat}
  {a b c e : Span × T}

omit [DecidableEq T] in
theorem outranks_iff : outranks a b = true ↔
    a.1.length < b.1.length ∨ a.1.length = b.1.length ∧
      (b.1.start < a.1.start ∨ a.1.start = b.1.start ∧ (compare b.2 a.2).isLE = true) := by
  unfold outranks
  split
  · simp only [decide_eq_true_eq]
    omega
  · split
    · simp only [decide_eq_true_eq]
      omega
    · next hlength hstart =>
      simp only [Decidable.not_not.mp hlength, Decidable.not_not.mp hstart, Nat.lt_irrefl, true_and,
        false_or]

variable [Std.TransOrd T]

omit [DecidableEq T] in
theorem isLE_total (x y : T) : (compare x y).isLE = true ∨ (compare y x).isLE = true := by
  have hswap : compare x y = (compare y x).swap := Std.OrientedCmp.eq_swap
  rw [hswap]
  cases compare y x <;> simp

omit [DecidableEq T] in
theorem outranks_refl (a : Span × T) : outranks a a = true := by
  simp [outranks_iff, Std.ReflCmp.compare_self]

omit [DecidableEq T] in
theorem outranks_trans (h : outranks a b = true) (h' : outranks b c = true) :
    outranks a c = true := by
  have htrans (hb : (compare b.2 a.2).isLE = true) (hc : (compare c.2 b.2).isLE = true) :
      (compare c.2 a.2).isLE = true := Std.TransCmp.isLE_trans hc hb
  rw [outranks_iff] at *
  grind

omit [DecidableEq T] in
theorem outranks_total (a b : Span × T) : outranks a b = true ∨ outranks b a = true := by
  have htotal := isLE_total a.2 b.2
  rw [outranks_iff, outranks_iff]
  grind

omit [DecidableEq T] in
/-- Entries that outrank each other have the same target. -/
theorem target_eq_of_outranks [Std.LawfulEqOrd T] (h : outranks a b = true)
    (h' : outranks b a = true) : a.2 = b.2 := by
  rw [outranks_iff] at *
  have hboth : (compare a.2 b.2).isLE = true ∧ (compare b.2 a.2).isLE = true := by grind
  exact Std.LawfulEqCmp.eq_of_compare (Std.OrientedCmp.isLE_antisymm hboth.1 hboth.2)

/-- Whether an entry is the best one so far, or one around an offset, and outranks all of these. -/
structure Wins (entries : List (Span × T)) (offset : Nat) (best : Option (Span × T))
    (e : Span × T) : Prop where
  mem : best = some e ∨ e ∈ entries ∧ offset ∈ e.1
  outranks_best : ∀ other, best = some other → outranks e other = true
  outranks_mem : ∀ other ∈ entries, offset ∈ other.1 → outranks e other = true

omit [DecidableEq T] in
theorem wins_foldl {best : Option (Span × T)}
    (h : entries.foldl (fun best entry =>
      if entry.1.contains offset && best.all (outranks entry) then some entry else best) best =
        some e) : Wins entries offset best e := by
  induction entries generalizing best with
  | nil =>
    refine ⟨Or.inl h, fun other hother => ?_, by simp⟩
    cases h.symm.trans hother
    exact outranks_refl e
  | cons entry rest ih =>
    rw [List.foldl_cons] at h
    by_cases hnew : (entry.1.contains offset && best.all (outranks entry)) = true
    · rw [if_pos hnew] at h
      simp only [Bool.and_eq_true, Span.contains_iff] at hnew
      obtain ⟨hin, hall⟩ := hnew
      obtain ⟨hmem, hbest, hrest⟩ := ih h
      have hentry := hbest entry rfl
      refine ⟨?_, fun other hother => ?_, List.forall_mem_cons.mpr ⟨fun _ => hentry, hrest⟩⟩
      · rcases hmem with heq | ⟨hmem, hoffset⟩
        · cases heq
          exact Or.inr ⟨List.mem_cons_self .., hin⟩
        · exact Or.inr ⟨List.mem_cons_of_mem _ hmem, hoffset⟩
      · rw [hother, Option.all_some] at hall
        exact outranks_trans hentry hall
    · rw [if_neg hnew] at h
      obtain ⟨hmem, hbest, hrest⟩ := ih h
      refine ⟨hmem.imp_right (And.imp_left (List.mem_cons_of_mem _)), hbest,
        List.forall_mem_cons.mpr ⟨fun hin => ?_, hrest⟩⟩
      -- The entry was not taken because the best one so far outranks it.
      simp only [Bool.and_eq_true, Span.contains_iff, hin, true_and] at hnew
      cases best with
      | none => simp at hnew
      | some other =>
        have hother := (outranks_total entry other).resolve_left hnew
        exact outranks_trans (hbest other rfl) hother

/-- The target of an offset is that of an entry around it that outranks all entries around it. -/
theorem targetAt?_eq_some_iff [Std.LawfulEqOrd T] {t : Trace T} (h : t.WellFormed) {target : T} :
    t.targetAt? offset = some target ↔ ∃ s ∈ t.spansOf target, offset ∈ s ∧
      ∀ other, ∀ s' ∈ t.spansOf other, offset ∈ s' → outranks (s, target) (s', other) = true := by
  have hentries (s : Span) (own : T) : (s, own) ∈ t.commit.entries ↔ s ∈ t.spansOf own :=
    h.commit.mem_entries_iff
  constructor
  · intro htarget
    obtain ⟨⟨s, own⟩, hnarrowest, rfl⟩ := Option.map_eq_some_iff.mp htarget
    obtain ⟨hmem, -, hall⟩ := wins_foldl hnarrowest
    obtain ⟨hmem, hin⟩ := hmem.resolve_left nofun
    exact ⟨s, (hentries s own).mp hmem, hin, fun other s' hs' => hall _ ((hentries s' other).mpr hs')⟩
  · rintro ⟨s, hs, hin, hall⟩
    have hmem := (hentries s target).mpr hs
    have hsome := (isSome_targetAt?_iff h).mpr ⟨target, h.commit.covers_iff.mpr ⟨_, hmem, rfl, hin⟩⟩
    obtain ⟨own, hown⟩ := Option.isSome_iff_exists.mp hsome
    obtain ⟨⟨s', own⟩, hnarrowest, rfl⟩ := Option.map_eq_some_iff.mp hown
    obtain ⟨hmem', -, hbest⟩ := wins_foldl hnarrowest
    obtain ⟨hmem', hin'⟩ := hmem'.resolve_left nofun
    have heq := target_eq_of_outranks (hbest _ hmem hin) (hall own s' ((hentries s' own).mp hmem') hin')
    rw [hown]
    exact congrArg some heq

/-- A target that an offset is mapped to is the one of the offset unless the span of another target
outranks its span. -/
theorem targetAt?_eq_some_iff_of_covers [Std.LawfulEqOrd T] {t : Trace T} (h : t.WellFormed)
    {target : T} (hc : t.commit.Covers target offset) :
    t.targetAt? offset = some target ↔ ∀ s ∈ t.spansOf target, offset ∈ s →
      ∀ other, other ≠ target → ∀ s' ∈ t.spansOf other, offset ∈ s' →
        outranks (s, target) (s', other) = true := by
  -- Of the spans of one target at most one lies around an offset.
  have hunique {s s' : Span} (hs : s ∈ t.spansOf target) (hs' : s' ∈ t.spansOf target)
      (hin : offset ∈ s) (hin' : offset ∈ s') : s = s' := by
    refine Decidable.byContradiction fun hne => ?_
    have hapart := (h.commit.canonical_rangesOf target).apart_of_mem hs hs' hne
    simp only [Span.Apart, Span.mem_iff] at hapart hin hin'
    omega
  rw [targetAt?_eq_some_iff h]
  constructor
  · rintro ⟨s, hs, hin, hall⟩ s' hs' hin' other - r hr hinr
    rw [hunique hs' hs hin' hin]
    exact hall other r hr hinr
  · intro hothers
    obtain ⟨s, hs, hin⟩ := hc
    refine ⟨s, hs, hin, fun other s' hs' hin' => ?_⟩
    by_cases hsame : other = target
    · subst hsame
      rw [hunique hs hs' hin hin']
      exact outranks_refl _
    · exact hothers s hs hin other hsame s' hs' hin'

end Ranking

end ModelText.Trace
