import ModelText.Trace.Ranges

/-!
# Canonical ranges

Adding a span, clipping and indenting keep ranges in canonical form. A canonical list is determined
by the offsets that it covers, so two ways of building the same set of offsets end in the same list.
-/

namespace ModelText

namespace Span

/-- Neither span reaches the other: at least one offset lies between them. -/
def Apart (s t : Span) : Prop := s.stop < t.start ∨ t.stop < s.start

theorem touches_eq_false_iff {s t : Span} : s.touches t = false ↔ s.Apart t := by
  simp only [touches, Apart, Bool.and_eq_false_iff, decide_eq_false_iff_not]
  omega

/-- A span apart from two spans that reach each other lies on one side of both. -/
theorem Apart.union {r s t : Span} (hs : r.Apart s) (ht : r.Apart t) (htouch : s.touches t = true)
    (hr : r.start < r.stop) : r.Apart (s.union t) := by
  simp only [touches, Bool.and_eq_true, decide_eq_true_eq] at htouch
  simp only [Apart, Span.union] at hs ht ⊢
  omega

end Span

namespace Ranges

theorem canonical_nil : Canonical [] := ⟨by simp, List.Pairwise.nil⟩

theorem Canonical.tail {s : Span} {ranges : Ranges} (h : Canonical (s :: ranges)) :
    Canonical ranges :=
  ⟨fun r hr => h.1 r (List.mem_cons_of_mem _ hr), (List.pairwise_cons.mp h.2).2⟩

theorem Canonical.filter {ranges : Ranges} (h : Canonical ranges) (p : Span → Bool) :
    Canonical (ranges.filter p) :=
  ⟨fun r hr => h.1 r (List.mem_filter.mp hr).1, h.2.filter p⟩

/-- What the later ranges cover lies behind the first range, with a gap. -/
theorem Canonical.stop_lt_of_covers_tail {s : Span} {ranges : Ranges}
    (h : Canonical (s :: ranges)) {offset : Nat} (hc : Covers ranges offset) :
    s.stop < offset := by
  obtain ⟨r, hr, hmem⟩ := hc
  have hbefore := (List.pairwise_cons.mp h.2).1 r hr
  simp only [Span.mem_iff] at hmem
  omega

/-- Two different ranges are apart, whichever comes first. -/
theorem Canonical.apart_of_mem {ranges : Ranges} (h : Canonical ranges) {r s : Span}
    (hr : r ∈ ranges) (hs : s ∈ ranges) (hne : r ≠ s) : r.Apart s := by
  induction ranges with
  | nil => simp at hr
  | cons a rest ih =>
    have hbefore := (List.pairwise_cons.mp h.2).1
    rcases List.mem_cons.mp hr with rfl | hr
    · rcases List.mem_cons.mp hs with rfl | hs
      · exact absurd rfl hne
      · exact Or.inl (hbefore s hs)
    · rcases List.mem_cons.mp hs with heq | hs
      · exact Or.inr (heq ▸ hbefore r hr)
      · exact ih h.tail hr hs

/-! ## Uniqueness -/

/-- The first range starts at the least offset that is covered. -/
theorem Canonical.start_le_of_covers {s : Span} {ranges : Ranges} (h : Canonical (s :: ranges))
    {offset : Nat} (hc : Covers (s :: ranges) offset) : s.start ≤ offset := by
  rcases (covers_cons ..).mp hc with hmem | htail
  · exact hmem.1
  · have hs := h.1 s (List.mem_cons_self ..)
    have hbehind := h.stop_lt_of_covers_tail htail
    omega

theorem Canonical.covers_start {s : Span} {ranges : Ranges} (h : Canonical (s :: ranges)) :
    Covers (s :: ranges) s.start :=
  ⟨s, List.mem_cons_self .., Nat.le_refl _, h.1 s (List.mem_cons_self ..)⟩

/-- The first range reaches at least as far as the first range of a list that covers less. -/
theorem Canonical.stop_le_stop {s t : Span} {left right : Ranges} (hleft : Canonical (s :: left))
    (hstart : s.start = t.start) (h : ∀ offset, Covers (t :: right) offset →
      Covers (s :: left) offset) : t.stop ≤ s.stop := by
  have hs := hleft.1 s (List.mem_cons_self ..)
  apply Nat.le_of_not_lt
  intro hlt
  have hmem : s.stop ∈ t := ⟨by omega, hlt⟩
  rcases (covers_cons ..).mp (h _ ⟨t, List.mem_cons_self .., hmem⟩) with hin | htail
  · simp only [Span.mem_iff] at hin
    omega
  · have hbehind := hleft.stop_lt_of_covers_tail htail
    omega

/-- Canonical ranges that cover the same offsets start with the same range. -/
theorem Canonical.head_eq {s t : Span} {left right : Ranges} (hleft : Canonical (s :: left))
    (hright : Canonical (t :: right))
    (h : ∀ offset, Covers (s :: left) offset ↔ Covers (t :: right) offset) : s = t := by
  have hstart : s.start = t.start :=
    Nat.le_antisymm (hleft.start_le_of_covers ((h _).mpr hright.covers_start))
      (hright.start_le_of_covers ((h _).mp hleft.covers_start))
  have hstop : s.stop = t.stop :=
    Nat.le_antisymm (hright.stop_le_stop hstart.symm fun offset => (h offset).mp)
      (hleft.stop_le_stop hstart fun offset => (h offset).mpr)
  cases s
  cases t
  simp_all

/-- Canonical ranges are determined by the offsets that they cover. -/
theorem Canonical.eq_of_covers {left right : Ranges} (hleft : Canonical left)
    (hright : Canonical right) (h : ∀ offset, Covers left offset ↔ Covers right offset) :
    left = right := by
  induction left generalizing right with
  | nil =>
    cases right with
    | nil => rfl
    | cons t rest =>
      have ht := hright.1 t (List.mem_cons_self ..)
      exact absurd ((h t.start).mpr ⟨t, List.mem_cons_self .., Nat.le_refl _, ht⟩)
        (covers_nil _)
  | cons s left ih =>
    cases right with
    | nil =>
      have hs := hleft.1 s (List.mem_cons_self ..)
      exact absurd ((h s.start).mp ⟨s, List.mem_cons_self .., Nat.le_refl _, hs⟩)
        (covers_nil _)
    | cons t right =>
      obtain rfl := hleft.head_eq hright h
      congr 1
      apply ih hleft.tail hright.tail
      intro offset
      have hcase := h offset
      simp only [covers_cons] at hcase
      constructor
      · intro hc
        have hbehind := hleft.stop_lt_of_covers_tail hc
        rcases hcase.mp (Or.inr hc) with hmem | hc
        · simp only [Span.mem_iff] at hmem
          omega
        · exact hc
      · intro hc
        have hbehind := hright.stop_lt_of_covers_tail hc
        rcases hcase.mpr (Or.inr hc) with hmem | hc
        · simp only [Span.mem_iff] at hmem
          omega
        · exact hc

/-! ## Adding a span -/

/-- A range apart from a span, and from every range that reaches the span, is apart from their
hull. -/
theorem apart_foldl_union {r s : Span} (hr : r.start < r.stop) {ranges : Ranges}
    (htouch : ∀ t ∈ ranges, t.touches s = true) (hapart : ∀ t ∈ ranges, r.Apart t) :
    ∀ around : Span, around.start ≤ s.start → s.stop ≤ around.stop → r.Apart around →
      r.Apart (ranges.foldl Span.union around) := by
  induction ranges with
  | nil => exact fun _ _ _ h => h
  | cons t rest ih =>
    intro around hstart hstop haround
    have ht := htouch t (List.mem_cons_self ..)
    have htouch' : around.touches t = true := by
      simp only [Span.touches, Bool.and_eq_true, decide_eq_true_eq] at ht ⊢
      omega
    rw [List.foldl_cons]
    apply ih (fun u hu => htouch u (List.mem_cons_of_mem _ hu))
      (fun u hu => hapart u (List.mem_cons_of_mem _ hu))
    · simp only [Span.union]
      omega
    · simp only [Span.union]
      omega
    · exact haround.union (hapart t (List.mem_cons_self ..)) htouch' hr

theorem apart_hull {ranges : Ranges} (h : Canonical ranges) {r s : Span} (hr : r ∈ ranges)
    (hrs : r.touches s = false) : r.Apart (hull ranges s) := by
  refine apart_foldl_union (h.1 r hr) (fun t ht => (List.mem_filter.mp ht).2) ?_ s (Nat.le_refl _)
    (Nat.le_refl _) (Span.touches_eq_false_iff.mp hrs)
  intro t ht
  obtain ⟨htmem, httouch⟩ := List.mem_filter.mp ht
  apply h.apart_of_mem hr htmem
  rintro rfl
  simp [httouch] at hrs

theorem hull_start_lt_stop {ranges : Ranges} {s : Span} (hs : s.start < s.stop) :
    (hull ranges s).start < (hull ranges s).stop := by
  have hmem : s.start ∈ hull ranges s := mem_hull_iff.mpr (Or.inl ⟨Nat.le_refl _, hs⟩)
  simp only [Span.mem_iff] at hmem
  omega

/-- A range between the canonical ranges in front of it and those behind it. -/
theorem canonical_insert {ranges : Ranges} (h : Canonical ranges) {s : Span}
    (hs : s.start < s.stop) (hapart : ∀ r ∈ ranges, r.Apart s) :
    Canonical (ranges.takeWhile (·.start < s.start) ++
      s :: ranges.dropWhile (·.start < s.start)) := by
  have hsplit := List.takeWhile_append_dropWhile (p := fun r : Span => decide (r.start < s.start))
    (l := ranges)
  have hpair := h.2
  rw [← hsplit, List.pairwise_append] at hpair
  obtain ⟨hfront, hback, hacross⟩ := hpair
  have hbefore : ∀ r ∈ ranges.takeWhile (·.start < s.start), r.stop < s.start := by
    intro r hr
    have hmem := (List.takeWhile_sublist _).mem hr
    have hlt := List.all_takeWhile (l := ranges) (p := (·.start < s.start))
    have hlt := of_decide_eq_true (List.all_eq_true.mp hlt r hr)
    have hr' := h.1 r hmem
    rcases hapart r hmem with h' | h' <;> omega
  -- The first range that is kept behind `s` starts no earlier, and the others follow it.
  have hbehind : ∀ r ∈ ranges.dropWhile (·.start < s.start), s.stop < r.start := by
    intro r hr
    have hmem := (List.dropWhile_sublist _).mem hr
    have hle : s.start ≤ r.start := by
      cases hd : ranges.dropWhile (·.start < s.start) with
      | nil => simp [hd] at hr
      | cons t rest =>
        have ht : ¬ t.start < s.start := by
          have := List.head?_dropWhile_not (fun r : Span => decide (r.start < s.start)) ranges
          simpa [hd] using this
        rw [hd] at hr hback
        rcases List.mem_cons.mp hr with rfl | hr
        · omega
        · have := (List.pairwise_cons.mp hback).1 r hr
          have := h.1 t ((List.dropWhile_sublist _).mem (hd ▸ List.mem_cons_self ..))
          omega
    have hr' := h.1 r hmem
    rcases hapart r hmem with h' | h' <;> omega
  constructor
  · intro r hr
    rcases List.mem_append.mp hr with hr | hr
    · exact h.1 r ((List.takeWhile_sublist _).mem hr)
    · rcases List.mem_cons.mp hr with rfl | hr
      · exact hs
      · exact h.1 r ((List.dropWhile_sublist _).mem hr)
  · rw [List.pairwise_append]
    refine ⟨hfront, List.pairwise_cons.mpr ⟨hbehind, hback⟩, ?_⟩
    intro r hr t ht
    rcases List.mem_cons.mp ht with rfl | ht
    · exact hbefore r hr
    · exact hacross r hr t ht

/-- Adding a span keeps the canonical form. -/
theorem canonical_add {ranges : Ranges} (h : Canonical ranges) (s : Span) :
    Canonical (ranges.add s) := by
  unfold add
  split
  · exact h
  · next hs =>
    have hs : s.start < s.stop := by simpa [Span.isEmpty] using hs
    apply canonical_insert (h.filter _) (hull_start_lt_stop hs)
    intro r hr
    obtain ⟨hmem, htouch⟩ := List.mem_filter.mp hr
    exact apart_hull h hmem (by simpa using htouch)

/-! ## Clipping -/

/-- Where a span lies that was clipped to bounds and rebased on their start. -/
theorem eq_of_range_eq_some {s bounds t : Span} (h : s.range bounds = some t) :
    t.start < t.stop ∧ t.start + bounds.start = max s.start bounds.start ∧
      t.stop + bounds.start = min s.stop bounds.stop := by
  simp only [Span.range] at h
  split at h
  · cases h
    simp only
    omega
  · cases h

/-- Clipping keeps the canonical form. -/
theorem canonical_clip {ranges : Ranges} (h : Canonical ranges) (bounds : Span) :
    Canonical (ranges.clip bounds) := by
  constructor
  · intro t ht
    obtain ⟨s, _, hrange⟩ := List.mem_filterMap.mp ht
    exact (eq_of_range_eq_some hrange).1
  · apply h.2.filterMap
    intro s t hlt s' hs' t' ht'
    have hs := eq_of_range_eq_some hs'
    have ht := eq_of_range_eq_some ht'
    omega

/-! ## Indenting -/

/-- Where an offset lies after `width` bytes were inserted in front of each of `lineStarts`: an
insertion at the offset lands in front of it. -/
def moved (lineStarts : List Nat) (width offset : Nat) : Nat :=
  offset + lineStarts.countP (· ≤ offset) * width

/-- An offset that is inserted in front of `lineStart`: behind what is inserted in front of earlier
line starts, and in front of where the line start moves. -/
def InsertedAt (lineStarts : List Nat) (width lineStart offset : Nat) : Prop :=
  lineStart + lineStarts.countP (· < lineStart) * width ≤ offset ∧
    offset < moved lineStarts width lineStart

/-- The number of bytes inserted in front of line starts below a bound. -/
def insertedBelow (lineStarts : List Nat) (width bound : Nat) : Nat :=
  lineStarts.countP (· < bound) * width

section Indent

variable {lineStarts : List Nat} {width : Nat}

theorem insertedBelow_mono (lineStarts : List Nat) (width : Nat) {a b : Nat} (h : a ≤ b) :
    insertedBelow lineStarts width a ≤ insertedBelow lineStarts width b := by
  apply Nat.mul_le_mul_right
  apply List.countP_mono_left
  intro n _ hn
  simp only [decide_eq_true_eq] at hn ⊢
  omega

theorem moved_eq (lineStarts : List Nat) (width offset : Nat) :
    moved lineStarts width offset = offset + insertedBelow lineStarts width (offset + 1) := by
  simp only [moved, insertedBelow, Nat.lt_succ_iff]

/-- Old offsets keep their order. -/
theorem moved_lt_moved {i j : Nat} (h : i < j) :
    moved lineStarts width i < moved lineStarts width j := by
  have := insertedBelow_mono lineStarts width (show i + 1 ≤ j + 1 by omega)
  rw [moved_eq, moved_eq]
  omega

theorem moved_le_moved_iff {i j : Nat} :
    moved lineStarts width i ≤ moved lineStarts width j ↔ i ≤ j := by
  constructor
  · intro hle
    apply Nat.le_of_not_lt
    intro hlt
    exact absurd (moved_lt_moved hlt) (Nat.not_lt.mpr hle)
  · intro hle
    rcases Nat.eq_or_lt_of_le hle with rfl | hlt
    · exact Nat.le_refl _
    · exact Nat.le_of_lt (moved_lt_moved hlt)

theorem insertedAt_iff {lineStart offset : Nat} :
    InsertedAt lineStarts width lineStart offset ↔
      lineStart + insertedBelow lineStarts width lineStart ≤ offset ∧
        offset < lineStart + insertedBelow lineStarts width (lineStart + 1) := by
  rw [InsertedAt, moved_eq]
  rfl

/-- What lies in front of a position below `limit` is an old offset or was inserted. -/
theorem moved_or_inserted_of_lt {offset : Nat} (limit : Nat)
    (h : offset < moved lineStarts width limit) :
    (∃ old, offset = moved lineStarts width old) ∨
      ∃ lineStart ∈ lineStarts, InsertedAt lineStarts width lineStart offset := by
  -- Without a line start at `bound`, nothing is inserted there.
  have hnone (bound : Nat) (hmem : bound ∉ lineStarts) :
      insertedBelow lineStarts width (bound + 1) = insertedBelow lineStarts width bound := by
    simp only [insertedBelow]
    congr 1
    apply List.countP_congr
    intro n hn
    have : n ≠ bound := fun heq => hmem (heq ▸ hn)
    simp only [decide_eq_true_eq]
    omega
  induction limit with
  | zero =>
    by_cases hmem : 0 ∈ lineStarts
    · refine Or.inr ⟨0, hmem, ?_, h⟩
      simp
    · have hzero := hnone 0 hmem
      rw [moved_eq, hzero] at h
      simp [insertedBelow] at h
  | succ limit ih =>
    by_cases hlt : offset < moved lineStarts width limit
    · exact ih hlt
    · by_cases heq : offset = moved lineStarts width limit
      · exact Or.inl ⟨limit, heq⟩
      · rw [moved_eq] at h hlt heq
        by_cases hmem : limit + 1 ∈ lineStarts
        · refine Or.inr ⟨limit + 1, hmem, insertedAt_iff.mpr ?_⟩
          omega
        · rw [hnone _ hmem] at h
          omega

/-- Every offset of the indented text is an old one or was inserted in front of a line start. -/
theorem moved_or_inserted (lineStarts : List Nat) (width offset : Nat) :
    (∃ old, offset = moved lineStarts width old) ∨
      ∃ lineStart ∈ lineStarts, InsertedAt lineStarts width lineStart offset :=
  moved_or_inserted_of_lt (offset + 1) (by rw [moved_eq]; omega)

theorem indent_start (s : Span) :
    (s.indent lineStarts width).start = moved lineStarts width s.start := rfl

/-- The end of a span moves by what is inserted in front of its last offset. -/
theorem indent_stop {s : Span} (h : s.start < s.stop) :
    (s.indent lineStarts width).stop = s.stop + insertedBelow lineStarts width s.stop := by
  have := insertedBelow_mono lineStarts width (show s.start + 1 ≤ s.stop from h)
  have hmax : (s.indent lineStarts width).stop =
      max (s.stop + insertedBelow lineStarts width s.stop) (moved lineStarts width s.start) := rfl
  rw [hmax, moved_eq]
  omega

/-- A moved offset lies in an indented span exactly when the offset lay in the span. -/
theorem moved_mem_indent_iff {s : Span} (h : s.start < s.stop) {offset : Nat} :
    moved lineStarts width offset ∈ s.indent lineStarts width ↔ offset ∈ s := by
  rw [Span.mem_iff, indent_start, indent_stop h, moved_le_moved_iff, Span.mem_iff]
  refine and_congr_right fun _ => ?_
  rw [moved_eq]
  constructor
  · intro hlt
    apply Nat.lt_of_not_le
    intro hle
    have := insertedBelow_mono lineStarts width (show s.stop ≤ offset + 1 by omega)
    omega
  · intro hlt
    have := insertedBelow_mono lineStarts width (show offset + 1 ≤ s.stop from hlt)
    omega

/-- An offset inserted in front of a line start lies in an indented span exactly when the line start
lay strictly inside the span. -/
theorem inserted_mem_indent_iff {s : Span} (h : s.start < s.stop) {lineStart offset : Nat}
    (hins : InsertedAt lineStarts width lineStart offset) :
    offset ∈ s.indent lineStarts width ↔ s.start < lineStart ∧ lineStart < s.stop := by
  rw [Span.mem_iff, indent_start, indent_stop h, moved_eq]
  obtain ⟨hlow, hhigh⟩ := insertedAt_iff.mp hins
  constructor
  · rintro ⟨hstart, hstop⟩
    constructor
    · apply Nat.lt_of_not_le
      intro hle
      have := insertedBelow_mono lineStarts width (show lineStart + 1 ≤ s.start + 1 by omega)
      omega
    · apply Nat.lt_of_not_le
      intro hle
      have := insertedBelow_mono lineStarts width hle
      omega
  · rintro ⟨hstart, hstop⟩
    constructor
    · have := insertedBelow_mono lineStarts width (show s.start + 1 ≤ lineStart from hstart)
      omega
    · have := insertedBelow_mono lineStarts width (show lineStart + 1 ≤ s.stop from hstop)
      omega

/-- Indenting keeps the canonical form. -/
theorem canonical_indent {ranges : Ranges} (h : Canonical ranges) :
    Canonical (ranges.map (·.indent lineStarts width)) := by
  constructor
  · intro t ht
    obtain ⟨s, hs, rfl⟩ := List.mem_map.mp ht
    have hlt := h.1 s hs
    rw [indent_start, indent_stop hlt, moved_eq]
    have := insertedBelow_mono lineStarts width (show s.start + 1 ≤ s.stop from hlt)
    omega
  · rw [List.pairwise_map]
    apply h.2.imp_of_mem
    intro s t hs _ hlt
    rw [indent_start, indent_stop (h.1 s hs), moved_eq]
    have := insertedBelow_mono lineStarts width (show s.stop ≤ t.start + 1 by omega)
    omega

/-- A moved offset is covered exactly when the offset was. -/
theorem covers_indent_moved_iff {ranges : Ranges} (h : Canonical ranges) {offset : Nat} :
    Covers (ranges.map (·.indent lineStarts width)) (moved lineStarts width offset) ↔
      Covers ranges offset := by
  simp only [Covers, List.mem_map]
  constructor
  · rintro ⟨_, ⟨s, hs, rfl⟩, hmem⟩
    exact ⟨s, hs, (moved_mem_indent_iff (h.1 s hs)).mp hmem⟩
  · rintro ⟨s, hs, hmem⟩
    exact ⟨_, ⟨s, hs, rfl⟩, (moved_mem_indent_iff (h.1 s hs)).mpr hmem⟩

/-- An inserted offset is covered exactly when the offsets on both sides of the insertion were. -/
theorem covers_indent_inserted_iff {ranges : Ranges} (h : Canonical ranges)
    {lineStart offset : Nat} (hins : InsertedAt lineStarts width lineStart offset) :
    Covers (ranges.map (·.indent lineStarts width)) offset ↔
      0 < lineStart ∧ Covers ranges (lineStart - 1) ∧ Covers ranges lineStart := by
  simp only [Covers, List.mem_map]
  constructor
  · rintro ⟨_, ⟨s, hs, rfl⟩, hmem⟩
    have hboth := (inserted_mem_indent_iff (h.1 s hs) hins).mp hmem
    exact ⟨by omega, ⟨s, hs, by omega, by omega⟩, ⟨s, hs, by omega, by omega⟩⟩
  · rintro ⟨hpos, ⟨s, hs, hbefore⟩, ⟨t, ht, hbehind⟩⟩
    -- Ranges on both sides of one insertion adjoin, so they are one range.
    have heq : s = t := by
      apply Decidable.byContradiction
      intro hne
      have hapart := h.apart_of_mem hs ht hne
      simp only [Span.Apart, Span.mem_iff] at hapart hbefore hbehind
      omega
    subst heq
    refine ⟨_, ⟨s, hs, rfl⟩, (inserted_mem_indent_iff (h.1 s hs) hins).mpr ?_⟩
    simp only [Span.mem_iff] at hbefore hbehind
    omega

end Indent

end Ranges

end ModelText
