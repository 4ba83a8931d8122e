import ModelText.Proofs.Trace.Canonical
import ModelText.Trace.Basic

/-!
# Entries of a trace

A trace lists the targets with their ranges. Here are what a look-up finds after an entry changed, the
form that all traces have, and what adding spans does to the offsets that a target is mapped to.
-/

namespace ModelText

namespace Trace

variable {T : Type} [DecidableEq T]

/-! ## Entries of targets -/

theorem lookup_cons_eq_ite {α : Type} (target key : T) (value : α) (rest : List (T × α)) :
    ((key, value) :: rest).lookup target =
      if target = key then some value else rest.lookup target := by
  rw [List.lookup_cons]
  by_cases h : target = key
  · simp [h]
  · simp [h, beq_eq_false_iff_ne.mpr h]

theorem lookup_update (target other : T) (f : Ranges → Ranges) (entries : List (T × Ranges)) :
    (update target f entries).lookup other =
      if other = target then some (f ((entries.lookup target).getD [])) else entries.lookup other := by
  induction entries with
  | nil => simp only [update, lookup_cons_eq_ite, List.lookup_nil, Option.getD_none]
  | cons entry rest ih =>
    obtain ⟨key, ranges⟩ := entry
    by_cases hkey : key = target
    · subst hkey
      by_cases h : other = key <;> simp [update, lookup_cons_eq_ite, h]
    · by_cases h : other = key
      · subst h
        simp [update, hkey]
      · simp only [update, if_neg hkey, lookup_cons_eq_ite, if_neg h, ih, if_neg (Ne.symm hkey)]

theorem mem_keys_update {target key : T} {f : Ranges → Ranges} {entries : List (T × Ranges)} :
    key ∈ (update target f entries).map (·.1) ↔ key = target ∨ key ∈ entries.map (·.1) := by
  induction entries with
  | nil => simp [update]
  | cons entry rest ih =>
    obtain ⟨own, ranges⟩ := entry
    by_cases h : own = target
    · subst h
      simp [update]
    · simp only [update, if_neg h, List.map_cons, List.mem_cons, ih]
      exact or_left_comm

theorem nodup_keys_update {target : T} {f : Ranges → Ranges} {entries : List (T × Ranges)}
    (h : (entries.map (·.1)).Nodup) : ((update target f entries).map (·.1)).Nodup := by
  induction entries with
  | nil => simp [update]
  | cons entry rest ih =>
    obtain ⟨own, ranges⟩ := entry
    rw [List.map_cons, List.nodup_cons] at h
    by_cases heq : own = target
    · simpa [update, heq] using h
    · rw [update, if_neg heq, List.map_cons, List.nodup_cons]
      refine ⟨?_, ih h.2⟩
      rw [mem_keys_update]
      exact fun hmem => hmem.elim heq h.1

theorem mem_update {target : T} {f : Ranges → Ranges} {entries : List (T × Ranges)}
    {entry : T × Ranges} (h : entry ∈ update target f entries) :
    entry ∈ entries ∨ ∃ ranges, (ranges = [] ∨ (target, ranges) ∈ entries) ∧
      entry = (target, f ranges) := by
  induction entries with
  | nil =>
    simp only [update, List.mem_singleton] at h
    exact Or.inr ⟨[], Or.inl rfl, h⟩
  | cons first rest ih =>
    obtain ⟨own, ranges⟩ := first
    by_cases heq : own = target
    · subst heq
      rw [update, if_pos rfl] at h
      rcases List.mem_cons.mp h with h | h
      · exact Or.inr ⟨ranges, Or.inr (List.mem_cons_self ..), h⟩
      · exact Or.inl (List.mem_cons_of_mem _ h)
    · rw [update, if_neg heq] at h
      rcases List.mem_cons.mp h with h | h
      · exact Or.inl (h ▸ List.mem_cons_self ..)
      · rcases ih h with h | ⟨ranges, hmem, h⟩
        · exact Or.inl (List.mem_cons_of_mem _ h)
        · exact Or.inr ⟨ranges, hmem.imp_right (List.mem_cons_of_mem _), h⟩

/-! ## Well-formed traces -/

/-- Each target has one entry, and its spans are in canonical form. -/
structure WellFormed (t : Trace T) : Prop where
  nodup : (t.ranges.map (·.1)).Nodup
  canonical : ∀ entry ∈ t.ranges, Ranges.Canonical entry.2

theorem lookup_eq_some_of_mem {α β : Type} [BEq α] [LawfulBEq α] {entries : List (α × β)}
    (h : (entries.map (·.1)).Nodup) {key : α} {value : β} (hmem : (key, value) ∈ entries) :
    entries.lookup key = some value := by
  obtain ⟨before, after, rfl⟩ := List.append_of_mem hmem
  refine List.lookup_eq_some_iff.mpr ⟨before, after, rfl, fun entry hentry => bne_iff_ne.mpr ?_⟩
  rintro rfl
  rw [List.map_append, List.map_cons] at h
  exact (List.nodup_append.mp h).2.2 _ (List.mem_map_of_mem hentry) _ List.mem_cons_self rfl

theorem mem_of_lookup_eq_some {α β : Type} [BEq α] [LawfulBEq α] {entries : List (α × β)}
    {key : α} {value : β} (h : entries.lookup key = some value) : (key, value) ∈ entries := by
  obtain ⟨before, after, rfl, _⟩ := List.lookup_eq_some_iff.mp h
  simp

/-- The spans of every target, with an entry or without, are in canonical form. -/
theorem WellFormed.canonical_rangesOf {t : Trace T} (h : t.WellFormed) (target : T) :
    Ranges.Canonical (t.rangesOf target) := by
  unfold rangesOf
  cases hl : t.ranges.lookup target with
  | none => exact Ranges.canonical_nil
  | some ranges => exact h.canonical _ (mem_of_lookup_eq_some hl)

/-- The entries of a target are the spans that are listed for it. -/
theorem WellFormed.mem_entries_iff {t : Trace T} (h : t.WellFormed) {s : Span} {target : T} :
    (s, target) ∈ t.entries ↔ s ∈ t.rangesOf target := by
  simp only [rangesOf, entries, List.mem_flatMap, List.mem_map, Prod.mk.injEq]
  constructor
  · rintro ⟨⟨own, ranges⟩, hentry, s, hs, rfl, rfl⟩
    rwa [lookup_eq_some_of_mem h.nodup hentry]
  · intro hs
    cases hl : t.ranges.lookup target with
    | none => simp [hl] at hs
    | some ranges =>
      rw [hl] at hs
      exact ⟨_, mem_of_lookup_eq_some hl, s, hs, rfl, rfl⟩

/-- A target is mapped to the offsets of the spans that are listed for it. -/
theorem WellFormed.covers_iff {t : Trace T} (h : t.WellFormed) {target : T} {offset : Nat} :
    t.Covers target offset ↔ ∃ entry ∈ t.entries, entry.2 = target ∧ offset ∈ entry.1 := by
  constructor
  · rintro ⟨s, hs, hmem⟩
    exact ⟨(s, target), h.mem_entries_iff.mpr hs, rfl, hmem⟩
  · rintro ⟨⟨s, own⟩, hentry, rfl, hmem⟩
    exact ⟨s, h.mem_entries_iff.mp hentry, hmem⟩

omit [DecidableEq T] in
theorem WellFormed.start_lt_stop {t : Trace T} (h : t.WellFormed) {entry : Span × T}
    (hentry : entry ∈ t.entries) : entry.1.start < entry.1.stop := by
  simp only [entries, List.mem_flatMap, List.mem_map] at hentry
  obtain ⟨⟨own, ranges⟩, hmem, s, hs, rfl⟩ := hentry
  exact (h.canonical _ hmem).1 s hs

/-! ## Adding spans -/

theorem rangesOf_addSpan (t : Trace T) (target other : T) (s : Span) :
    (t.addSpan target s).rangesOf other =
      if other = target then (t.rangesOf target).add s else t.rangesOf other := by
  unfold addSpan
  split
  · next hempty =>
    split
    · next heq => rw [heq, Ranges.add, if_pos hempty]
    · rfl
  · simp only [rangesOf, lookup_update]
    split <;> rfl

theorem covers_addSpan {t : Trace T} {target other : T} {s : Span} {offset : Nat} :
    (t.addSpan target s).Covers other offset ↔
      t.Covers other offset ∨ other = target ∧ offset ∈ s := by
  unfold Covers
  rw [rangesOf_addSpan]
  split
  · next heq => simp only [Ranges.covers_add, heq, true_and]
  · next hne => simp only [hne, false_and, or_false]

theorem WellFormed.addSpan {t : Trace T} (h : t.WellFormed) (target : T) (s : Span) :
    (t.addSpan target s).WellFormed := by
  unfold Trace.addSpan
  split
  · exact h
  · refine ⟨nodup_keys_update h.nodup, fun entry hentry => ?_⟩
    rcases mem_update hentry with hmem | ⟨ranges, hranges, rfl⟩
    · exact h.canonical _ hmem
    · apply Ranges.canonical_add
      rcases hranges with rfl | hmem
      · exact Ranges.canonical_nil
      · exact h.canonical _ hmem

/-- Adding a span changes nothing but the ranges. -/
theorem addSpan_eq (t : Trace T) (target : T) (s : Span) :
    t.addSpan target s = { t with ranges := (t.addSpan target s).ranges } := by
  unfold addSpan
  split <;> rfl

/-- A trace with the spans of entries added, each moved by a distance. -/
def addAll (t : Trace T) (delta : Int) (entries : List (Span × T)) : Trace T :=
  entries.foldl (fun t entry => t.addSpan entry.2 (entry.1.shift delta)) t

theorem covers_addAll {t : Trace T} {delta : Int} {entries : List (Span × T)} {target : T}
    {offset : Nat} : (t.addAll delta entries).Covers target offset ↔
      t.Covers target offset ∨ ∃ entry ∈ entries, entry.2 = target ∧
        offset ∈ entry.1.shift delta := by
  induction entries generalizing t with
  | nil => simp [addAll]
  | cons entry rest ih =>
    rw [addAll, List.foldl_cons, ← addAll, ih, covers_addSpan, or_assoc]
    simp only [List.mem_cons, or_and_right, exists_or, exists_eq_left, eq_comm (a := target)]

theorem WellFormed.addAll {t : Trace T} (h : t.WellFormed) (delta : Int)
    (entries : List (Span × T)) : (t.addAll delta entries).WellFormed := by
  induction entries generalizing t with
  | nil => exact h
  | cons entry rest ih => exact ih (h.addSpan _ _)

theorem addAll_eq (t : Trace T) (delta : Int) (entries : List (Span × T)) :
    t.addAll delta entries = { t with ranges := (t.addAll delta entries).ranges } := by
  induction entries generalizing t with
  | nil => rfl
  | cons entry rest ih =>
    rw [addAll, List.foldl_cons, ← addAll, ih, addSpan_eq]

end Trace

end ModelText
