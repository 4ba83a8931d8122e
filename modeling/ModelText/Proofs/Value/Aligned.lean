import ModelText.Proofs.Source.Encoding
import ModelText.Proofs.Trace.Coverage
import ModelText.Proofs.Value.Texts

/-!
# Texts and their traces stay together

A trace describes a text when it is open, has the text's length and maps offsets of the text only.
The operations on texts keep this for both traces of a text.
-/

namespace ModelText

open Template (NodeRef)
open Text (byteCount)

namespace Text

/-! ## Sizes -/

theorem sliceBytes_middle {s : String} {before middle after : List Char}
    (h : s.toList = before ++ middle ++ after) :
    sliceBytes s ⟨byteCount before, byteCount before + byteCount middle⟩ = String.ofList middle :=
  Source.slice_middle h

theorem mem_innerLineStarts {offset start : Nat} {cs : List Char}
    (h : start ∈ innerLineStarts offset cs) : offset < start ∧ start < offset + byteCount cs := by
  induction cs generalizing offset with
  | nil => cases h
  | cons c rest ih =>
    have hpos := c.utf8Size_pos
    cases rest with
    | nil => cases h
    | cons d rest =>
      have hpos' := d.utf8Size_pos
      have hnext (h : start ∈ innerLineStarts (offset + c.utf8Size) (d :: rest)) :
          offset < start ∧ start < offset + byteCount (c :: d :: rest) := by
        have := ih h
        simp only [byteCount] at this ⊢
        omega
      simp only [innerLineStarts] at h
      split at h
      · rcases List.mem_cons.mp h with rfl | h
        · simp only [byteCount]
          omega
        · exact hnext h
      · exact hnext h

theorem byteCount_indentInner (margin : List Char) (offset : Nat) (cs : List Char) :
    byteCount (indentInner margin cs) =
      byteCount cs + (innerLineStarts offset cs).length * byteCount margin := by
  induction cs generalizing offset with
  | nil => simp [indentInner, innerLineStarts]
  | cons c rest ih =>
    cases rest with
    | nil => simp [indentInner, innerLineStarts]
    | cons d rest =>
      have hrest := ih (offset + c.utf8Size)
      simp only [indentInner, innerLineStarts]
      split
      · simp only [byteCount_append, byteCount, List.length_cons, Nat.add_mul] at hrest ⊢
        omega
      · simp only [byteCount] at hrest ⊢
        omega

/-- Lines start inside the text. -/
theorem lt_size_of_mem_lineStarts {skipFirst : Bool} {s : String} {start : Nat}
    (h : start ∈ lineStarts skipFirst s) : start < s.utf8ByteSize := by
  unfold lineStarts at h
  rcases List.mem_append.mp h with h | h
  · split at h
    · cases h
    · next hskip =>
      obtain rfl := List.mem_singleton.mp h
      have hne : s.utf8ByteSize ≠ 0 := by
        intro hzero
        simp_all [String.isEmpty]
      omega
  · have := (mem_innerLineStarts h).2
    rwa [Nat.zero_add, byteCount_toList] at this

theorem utf8ByteSize_indentLines (margin : String) (skipFirst : Bool) (s : String) :
    (indentLines margin skipFirst s).utf8ByteSize =
      s.utf8ByteSize + (lineStarts skipFirst s).length * margin.utf8ByteSize := by
  unfold indentLines lineStarts
  rw [String.utf8ByteSize_append, utf8ByteSize_ofList, byteCount_indentInner margin.toList 0,
    byteCount_toList, byteCount_toList]
  split
  · simp
  · simp only [List.length_append, List.length_singleton, Nat.add_mul]
    omega

end Text

/-! ## Traces -/

namespace Trace

variable {T : Type} [DecidableEq T] {t other : Trace T} {size : Nat}

/-- A trace of a text of `size` bytes: open, and with targets for offsets of the text only. -/
structure Describes (t : Trace T) (size : Nat) : Prop where
  wellFormed : t.WellFormed
  isOpen : t.committed = false
  length : t.length = size
  inside : ∀ target offset, t.Covers target offset → offset < size

theorem describes_new (default? : Option T) (size : Nat) :
    Describes { default?, length := size } size :=
  ⟨⟨by simp, by simp⟩, rfl, rfl, fun target offset h => absurd h (by simp [Covers, rangesOf])⟩

theorem Describes.setPendingLink (h : t.Describes size) (target : Option T) :
    (t.setPendingLink target).Describes size := by
  refine ⟨h.wellFormed.setPendingLink target, ?_, ?_, fun own offset hc => ?_⟩
  · rw [Trace.setPendingLink, change_of_open h.isOpen]
    exact h.isOpen
  · rw [Trace.setPendingLink, change_of_open h.isOpen]
    exact h.length
  · rw [Covers, rangesOf_setPendingLink] at hc
    exact h.inside own offset hc

theorem Describes.advance (h : t.Describes size) (written : Nat) (highlight : Option Highlight) :
    (t.advance written highlight).Describes (size + written) := by
  refine ⟨h.wellFormed.advance written highlight, ?_, ?_, fun own offset hc => ?_⟩
  · rw [Trace.advance, change_of_open h.isOpen]
    split <;> exact h.isOpen
  · rw [length_advance h.isOpen, h.length]
  · rw [Covers, rangesOf_advance] at hc
    exact Nat.lt_of_lt_of_le (h.inside own offset hc) (Nat.le_add_right ..)

/-- The traces of two texts make a trace of both, one behind the other. -/
theorem Describes.append {size' : Nat} (h : t.Describes size) (h' : other.Describes size') :
    (t.append other).Describes (size + size') := by
  have hlength := h.length
  have hlength' := h'.length
  refine ⟨h.wellFormed.append other, ?_, ?_, fun target offset hc => ?_⟩
  · rw [append_eq h.isOpen]
    exact h.isOpen
  · rw [append_eq h.isOpen, ← h.length, ← h'.length]
  · rw [Covers, rangesOf_append h.isOpen, ← Covers, placed, covers_addAll, covers_addDefault,
      Span.mem_iff] at hc
    rcases hc with (hc | ⟨-, hc⟩) | ⟨⟨s, own⟩, hentry, rfl, hmem⟩
    · have := h.inside _ _ hc
      omega
    · dsimp only at hc
      omega
    · -- The last offset of the span is one of the second text.
      have hlt : s.start < s.stop := h'.wellFormed.start_lt_stop hentry
      have hlast : s.stop - 1 < size' := h'.inside own _
        (h'.wellFormed.covers_iff.mpr ⟨(s, own), hentry, rfl, by simp only; omega, by simp only; omega⟩)
      simp only [Span.mem_iff, Span.shift, Span.moveOffset] at hmem
      omega

omit [DecidableEq T] in
/-- Bounds inside the text are kept as they are. -/
theorem clippedBounds_of_le {bounds : Span} (hle : bounds.start ≤ bounds.stop) (hstop : bounds.stop ≤ t.length) :
    clippedBounds t.length bounds = bounds := by
  rw [clippedBounds, Nat.min_eq_left (by omega), Nat.min_eq_left hstop, Span.ordered_of_le hle]

theorem Describes.clip (h : t.Describes size) {bounds : Span} (hle : bounds.start ≤ bounds.stop)
    (hstop : bounds.stop ≤ size) : (t.clip bounds).Describes bounds.length := by
  have hbounds : clippedBounds t.length bounds = bounds := clippedBounds_of_le hle (h.length.symm ▸ hstop)
  refine ⟨h.wellFormed.clip bounds, ?_, ?_, fun target offset hc => ?_⟩
  · rw [Trace.clip, change_of_open h.isOpen]
    exact h.isOpen
  · rw [length_clip h.isOpen, hbounds]
  · have := ((covers_clip_iff h.wellFormed h.isOpen).mp hc).2
    rw [hbounds] at this
    simp only [Span.length]
    omega

theorem Describes.reset (h : t.Describes size) (size' : Nat) : (t.reset size').Describes size' := by
  refine ⟨h.wellFormed.reset size', ?_, ?_, fun target offset hc => ?_⟩
  · rw [Trace.reset, change_of_open h.isOpen]
    exact h.isOpen
  · rw [Trace.reset, change_of_open h.isOpen]
  · exact absurd hc (not_covers_reset h.isOpen size' target offset)

theorem Describes.add (h : t.Describes size) (target : T) :
    (t.add target 0 size).Describes size := by
  refine ⟨h.wellFormed.add target 0 size, ?_, ?_, fun own offset hc => ?_⟩
  · rw [Trace.add, change_of_open h.isOpen, addSpan_eq]
    exact h.isOpen
  · rw [Trace.add, change_of_open h.isOpen, addSpan_eq]
    exact h.length
  · rcases (covers_add_iff h.isOpen).mp hc with hc | ⟨-, -, hlt⟩
    · exact h.inside own offset hc
    · exact hlt

theorem Describes.indent (h : t.Describes size) {lineStarts : List Nat} (width : Nat)
    (hstarts : ∀ start ∈ lineStarts, start < size) :
    (t.indent lineStarts width).Describes (size + lineStarts.length * width) := by
  have hsize : Ranges.moved lineStarts width size = size + lineStarts.length * width := by
    have hall : lineStarts.countP (· ≤ size) = lineStarts.length := by
      rw [List.countP_eq_length]
      intro start hstart
      simpa using Nat.le_of_lt (hstarts start hstart)
    rw [Ranges.moved, hall]
  refine ⟨h.wellFormed.indent lineStarts width, ?_, ?_, fun target offset hc => ?_⟩
  · rw [Trace.indent, change_of_open h.isOpen]
    split <;> exact h.isOpen
  · rw [length_indent h.isOpen, h.length, hsize]
  · rw [Covers, rangesOf_indent h.wellFormed h.isOpen] at hc
    have hcanonical := h.wellFormed.canonical_rangesOf target
    rw [← hsize]
    rcases Ranges.moved_or_inserted lineStarts width offset with ⟨old, rfl⟩ | ⟨start, -, hins⟩
    · exact Ranges.moved_lt_moved (h.inside target old
        ((Ranges.covers_indent_moved_iff hcanonical).mp hc))
    · have hstart := h.inside target start
        ((Ranges.covers_indent_inserted_iff hcanonical hins).mp hc).2.2
      exact Nat.lt_trans hins.2 (Ranges.moved_lt_moved hstart)

end Trace

namespace TracedText

/-- Whether both traces of a text describe it. -/
structure Aligned (t : TracedText) : Prop where
  objects : t.objects.Describes t.size
  nodes : t.nodes.Describes t.size

theorem Aligned.slice {t : TracedText} (h : t.Aligned) {bounds : Span}
    (hcut : Text.IsCut t.value.toList bounds) : (t.slice bounds).Aligned := by
  have hle := hcut.start_le_stop
  have hstop := hcut.stop.le
  rw [Text.byteCount_toList] at hstop
  have hsize : (t.slice bounds).size = bounds.length := by
    obtain ⟨before, middle, after, hcs, rfl⟩ := hcut.exists_middle
    change (Text.sliceBytes t.value _).utf8ByteSize = _
    rw [Text.sliceBytes_middle hcs, Text.utf8ByteSize_ofList, Span.length]
    exact (Nat.add_sub_cancel_left ..).symm
  constructor
  · rw [hsize]
    exact h.objects.clip hle hstop
  · rw [hsize]
    exact h.nodes.clip hle hstop

theorem Aligned.reword {t : TracedText} (h : t.Aligned) (value : String) :
    (t.reword value).Aligned := by
  unfold TracedText.reword
  split
  · next hsize =>
    constructor
    · change t.objects.Describes value.utf8ByteSize
      rw [hsize]
      exact h.objects
    · change t.nodes.Describes value.utf8ByteSize
      rw [hsize]
      exact h.nodes
  · exact ⟨h.objects.reset _, h.nodes.reset _⟩

theorem Aligned.indentLines {t : TracedText} (h : t.Aligned) (margin : String)
    (skipFirst : Bool) : (t.indentLines margin skipFirst).Aligned := by
  have hsize : (t.indentLines margin skipFirst).size =
      t.size + (Text.lineStarts skipFirst t.value).length * margin.utf8ByteSize :=
    Text.utf8ByteSize_indentLines margin skipFirst t.value
  have hstarts : ∀ start ∈ Text.lineStarts skipFirst t.value, start < t.size :=
    fun start => Text.lt_size_of_mem_lineStarts
  constructor
  · rw [hsize]
    exact h.objects.indent _ hstarts
  · rw [hsize]
    exact h.nodes.indent _ hstarts

/-- Every operation on texts takes both traces along. -/
theorem textClass_aligned : TextClass Aligned where
  ofString _ _ _ := ⟨Trace.describes_new _ _, Trace.describes_new _ _⟩
  highlighted value container origin highlight := by
    refine ⟨?_, Trace.describes_new _ _⟩
    have h := (Trace.describes_new container 0).advance value.utf8ByteSize (some highlight)
    rwa [Nat.zero_add] at h
  ofObject description object origin := by
    refine ⟨?_, Trace.describes_new _ _⟩
    have h := (((Trace.describes_new (some object) 0).setPendingLink (some object)).advance
      description.utf8ByteSize none).setPendingLink none
    rwa [Nat.zero_add] at h
  append {t other} ht hother := by
    have hsize : (t.append other).size = t.size + other.size :=
      String.utf8ByteSize_append
    constructor
    · rw [hsize]
      exact ht.objects.append hother.objects
    · rw [hsize]
      exact ht.nodes.append hother.nodes
  slice ht hcut := ht.slice hcut
  reword value ht := ht.reword value
  indentLines margin skipFirst ht := ht.indentLines margin skipFirst
  mark node ht := ⟨ht.objects, ht.nodes.add node⟩

end TracedText

end ModelText
