/-!
# Spans

A span is a half-open range `[start, stop)` of byte offsets into a text. Spans are plain values:
a search that finds nothing answers `none` and never a sentinel span. A span written with reversed
bounds is allowed and is empty.
-/

namespace ModelText

/-- The largest offset that a text can have. -/
def maxOffset : Nat := 0xFFFFFFFFFFFFFFFF

/-- The largest distance over which spans are moved. -/
def maxShift : Nat := 0x7FFFFFFFFFFFFFFF

/-- A half-open range `[start, stop)` of byte offsets. -/
structure Span where
  start : Nat
  stop : Nat
  deriving DecidableEq, Repr, Inhabited

namespace Span

/-- The span between two offsets, given in either order. -/
def ordered (a b : Nat) : Span := if a ≤ b then ⟨a, b⟩ else ⟨b, a⟩

/-- The empty span at an offset. -/
def point (offset : Nat) : Span := ⟨offset, offset⟩

/-- The number of offsets in the span: zero when the bounds are reversed. -/
def length (s : Span) : Nat := s.stop - s.start

/-- A span is empty when it holds no offset. -/
def isEmpty (s : Span) : Bool := s.stop ≤ s.start

/-- Whether an offset lies in the span. -/
def contains (s : Span) (offset : Nat) : Bool := s.start ≤ offset && offset < s.stop

instance : Membership Nat Span := ⟨fun s offset => s.start ≤ offset ∧ offset < s.stop⟩

/-- Whether two spans overlap or lie side by side. -/
def touches (s t : Span) : Bool := s.start ≤ t.stop && t.start ≤ s.stop

/-- The least span around both. -/
def union (s t : Span) : Span := ⟨min s.start t.start, max s.stop t.stop⟩

/-- An offset moved by `delta`, kept between zero and `maxOffset`. -/
def moveOffset (offset : Nat) (delta : Int) : Nat := min maxOffset ((offset : Int) + delta).toNat

/-- Moves both bounds by `delta`, each kept between zero and `maxOffset`. -/
def shift (s : Span) (delta : Int) : Span := ⟨moveOffset s.start delta, moveOffset s.stop delta⟩

/-- What is left of the span inside `bounds`, counted from the start of `bounds`; nothing when the
two have no offset in common. -/
def range (s bounds : Span) : Option Span :=
  let start := max s.start bounds.start
  let stop := min s.stop bounds.stop
  if start < stop then some ⟨start - bounds.start, stop - bounds.start⟩ else none

/-- The span after `width` bytes were inserted in front of each offset of `lineStarts`. An
insertion at the start of the span lands in front of it, one at its end lands after it. -/
def indent (s : Span) (lineStarts : List Nat) (width : Nat) : Span :=
  let start := s.start + lineStarts.countP (· ≤ s.start) * width
  let stop := s.stop + lineStarts.countP (· < s.stop) * width
  ⟨start, max stop start⟩

/-- The text of a span in messages, such as `[3, 6)`. -/
def text (s : Span) : String := s!"[{s.start}, {s.stop})"

theorem mem_iff {offset : Nat} {s : Span} : offset ∈ s ↔ s.start ≤ offset ∧ offset < s.stop :=
  Iff.rfl

theorem contains_iff {s : Span} {offset : Nat} : s.contains offset = true ↔ offset ∈ s := by
  simp [contains, mem_iff]

theorem ordered_of_le {a b : Nat} (h : a ≤ b) : ordered a b = ⟨a, b⟩ := if_pos h

/-- The bounds of an ordered span are in order. -/
theorem ordered_start_le_stop (a b : Nat) : (ordered a b).start ≤ (ordered a b).stop := by
  unfold ordered; split <;> simp <;> omega

/-- Clipping and rebasing keeps exactly the offsets inside the bounds. -/
theorem mem_range_iff {s bounds t : Span} (h : s.range bounds = some t) {offset : Nat} :
    offset ∈ t ↔ offset + bounds.start ∈ s ∧ offset + bounds.start ∈ bounds := by
  simp only [range] at h
  split at h
  · cases h
    simp only [mem_iff]
    omega
  · cases h

/-- Something is left of a span whose bounds share an offset with it. -/
theorem exists_range_eq_some {s bounds : Span} {offset : Nat} (hs : offset ∈ s)
    (hbounds : offset ∈ bounds) : ∃ t, s.range bounds = some t := by
  have hlt : max s.start bounds.start < min s.stop bounds.stop := by
    simp only [mem_iff] at hs hbounds
    omega
  exact ⟨_, if_pos hlt⟩

/-- The span around two spans that overlap or adjoin holds exactly their offsets. -/
theorem mem_union_iff {s t : Span} (h : s.touches t = true) {offset : Nat} :
    offset ∈ s.union t ↔ offset ∈ s ∨ offset ∈ t := by
  simp only [touches, Bool.and_eq_true, decide_eq_true_eq] at h
  simp only [mem_iff, union]
  omega

end Span

end ModelText
