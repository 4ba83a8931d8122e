import ModelText.Span

/-!
# Sets of offsets as sorted ranges

A set of offsets is kept as a list of spans in canonical form: no span is empty, they are sorted by
their start, and between two of them lies at least one offset. The canonical list of a set is unique.
-/

namespace ModelText

/-- Spans that cover a set of offsets. -/
abbrev Ranges := List Span

namespace Ranges

/-- Whether an offset is covered. -/
def Covers (ranges : Ranges) (offset : Nat) : Prop := ∃ s ∈ ranges, offset ∈ s

/-- The canonical form: non-empty spans, in order and with gaps between them. -/
def Canonical (ranges : Ranges) : Prop :=
  (∀ s ∈ ranges, s.start < s.stop) ∧ ranges.Pairwise fun s t => s.stop < t.start

/-- The least span around `s` and all ranges that overlap or adjoin it. -/
def hull (ranges : Ranges) (s : Span) : Span :=
  (ranges.filter (·.touches s)).foldl Span.union s

/-- Covers the offsets of a span too: the ranges that overlap or adjoin it become one with it. -/
def add (ranges : Ranges) (s : Span) : Ranges :=
  if s.isEmpty then ranges
  else
    let merged := hull ranges s
    let apart := ranges.filter fun r => !r.touches s
    apart.takeWhile (·.start < merged.start) ++
      merged :: apart.dropWhile (·.start < merged.start)

/-- The covered offsets inside `bounds`, counted from the start of `bounds`. -/
def clip (ranges : Ranges) (bounds : Span) : Ranges := ranges.filterMap (·.range bounds)

@[simp] theorem covers_nil (offset : Nat) : ¬ Covers [] offset := by simp [Covers]

@[simp] theorem covers_cons (s : Span) (ranges : Ranges) (offset : Nat) :
    Covers (s :: ranges) offset ↔ offset ∈ s ∨ Covers ranges offset := by simp [Covers]

theorem covers_append (left right : Ranges) (offset : Nat) :
    Covers (left ++ right) offset ↔ Covers left offset ∨ Covers right offset := by
  simp [Covers, or_and_right, exists_or]

theorem mem_foldl_union_iff {s : Span} {ranges : Ranges} (h : ∀ r ∈ ranges, r.touches s = true)
    {offset : Nat} : offset ∈ ranges.foldl Span.union s ↔ offset ∈ s ∨ Covers ranges offset := by
  suffices ∀ around : Span, around.start ≤ s.start → s.stop ≤ around.stop →
      (offset ∈ ranges.foldl Span.union around ↔ offset ∈ around ∨ Covers ranges offset) from
    this s (Nat.le_refl _) (Nat.le_refl _)
  induction ranges with
  | nil => simp
  | cons r rest ih =>
    intro around hstart hstop
    have hr := h r (List.mem_cons_self ..)
    have htouch : around.touches r = true := by
      simp only [Span.touches, Bool.and_eq_true, decide_eq_true_eq] at hr ⊢
      omega
    rw [List.foldl_cons, ih (fun r hr => h r (List.mem_cons_of_mem _ hr)) _
      (by simp only [Span.union]; omega) (by simp only [Span.union]; omega),
      Span.mem_union_iff htouch, covers_cons, or_assoc]

/-- The hull covers the span and the ranges that overlap or adjoin it. -/
theorem mem_hull_iff {ranges : Ranges} {s : Span} {offset : Nat} :
    offset ∈ hull ranges s ↔ offset ∈ s ∨ Covers (ranges.filter (·.touches s)) offset :=
  mem_foldl_union_iff fun _ hr => (List.mem_filter.mp hr).2

/-- Adding a span covers its offsets and changes nothing else. -/
theorem covers_add {ranges : Ranges} {s : Span} {offset : Nat} :
    Covers (ranges.add s) offset ↔ Covers ranges offset ∨ offset ∈ s := by
  have hsplit : Covers ranges offset ↔ Covers (ranges.filter (·.touches s)) offset ∨
      Covers (ranges.filter fun r => !r.touches s) offset := by
    simp only [Covers, List.mem_filter, ← exists_or]
    refine exists_congr fun r => ?_
    cases r.touches s <;> simp
  unfold add
  split
  · next hempty =>
    simp only [Span.isEmpty, decide_eq_true_eq] at hempty
    have : ¬ offset ∈ s := by simp only [Span.mem_iff]; omega
    simp [this]
  · rw [covers_append, covers_cons, ← or_assoc, or_right_comm, ← covers_append,
      List.takeWhile_append_dropWhile, mem_hull_iff, hsplit]
    simp only [or_comm, or_assoc]

/-- Clipping keeps the offsets inside the bounds and counts them from the start of the bounds. -/
theorem covers_clip {ranges : Ranges} {bounds : Span} {offset : Nat} :
    Covers (ranges.clip bounds) offset ↔
      Covers ranges (offset + bounds.start) ∧ offset + bounds.start ∈ bounds := by
  constructor
  · rintro ⟨t, ht, hmem⟩
    obtain ⟨s, hs, hrange⟩ := List.mem_filterMap.mp ht
    have hboth := (Span.mem_range_iff hrange).mp hmem
    exact ⟨⟨s, hs, hboth.1⟩, hboth.2⟩
  · rintro ⟨⟨s, hs, hmem⟩, hbounds⟩
    obtain ⟨t, hrange⟩ := Span.exists_range_eq_some hmem hbounds
    exact ⟨t, List.mem_filterMap.mpr ⟨s, hs, hrange⟩,
      (Span.mem_range_iff hrange).mpr ⟨hmem, hbounds⟩⟩

end Ranges

end ModelText
