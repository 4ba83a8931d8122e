import ModelText.Proofs.Value.Assembly

/-!
# Parts of texts

What is cut out of a text between two of its characters is a part of it: each byte of the part has the targets and
the link that it has in the text.
-/

namespace ModelText

/-! ## Parts of traces -/

namespace Trace

/-- Of the marks inside the bounds, the first one around an offset is what is left of the first one of all. -/
theorem find?_clipMarks {α : Type} {bounds : Span} {offset : Nat} (hmem : offset + bounds.start ∈ bounds)
    (marks : List (Span × α)) :
    ((clipMarks bounds marks).find? (·.1.contains offset)).map (·.2) =
      (marks.find? (·.1.contains (offset + bounds.start))).map (·.2) := by
  induction marks with
  | nil => rfl
  | cons entry rest ih =>
    obtain ⟨s, mark⟩ := entry
    cases hrange : s.range bounds with
    | none =>
      have hskip : clipMarks bounds ((s, mark) :: rest) = clipMarks bounds rest :=
        List.filterMap_cons_none (by simp only [hrange, Option.map_none])
      have houtside : s.contains (offset + bounds.start) = false := by
        rw [Bool.eq_false_iff, Ne, Span.contains_iff]
        intro hs
        obtain ⟨_, hsome⟩ := Span.exists_range_eq_some hs hmem
        rw [hrange] at hsome
        cases hsome
      rw [hskip, ih, List.find?_cons_of_neg (by simp only [houtside]; decide)]
    | some left =>
      have hkeep : clipMarks bounds ((s, mark) :: rest) = (left, mark) :: clipMarks bounds rest :=
        List.filterMap_cons_some (by simp only [hrange, Option.map_some])
      have hsame : left.contains offset = s.contains (offset + bounds.start) := by
        rw [Bool.eq_iff_iff, Span.contains_iff, Span.contains_iff, Span.mem_range_iff hrange]
        exact and_iff_left hmem
      rw [hkeep, List.find?_cons, List.find?_cons, hsame]
      cases s.contains (offset + bounds.start) with
      | true => rfl
      | false => exact ih

variable {T : Type} [DecidableEq T] {t : Trace T} {size : Nat} {bounds : Span}

/-- A trace of `size` bytes that says of each of them what another trace says of the byte `start` bytes further on. -/
structure PartOf (part whole : Trace T) (start size : Nat) : Prop where
  covers : ∀ offset < size, ∀ target, part.Covers target offset ↔ whole.Covers target (offset + start)
  /-- The targets are the same when the default targets count, too. -/
  commit_covers : ∀ offset < size, ∀ target,
    part.commit.Covers target offset ↔ whole.commit.Covers target (offset + start)
  links : ∀ offset < size, part.linkAt? offset = whole.linkAt? (offset + start)

theorem Describes.partOf_clip (h : t.Describes size) (hle : bounds.start ≤ bounds.stop) (hstop : bounds.stop ≤ size) :
    (t.clip bounds).PartOf t bounds.start bounds.length := by
  have hmem {offset : Nat} (hlt : offset < bounds.length) : offset + bounds.start ∈ bounds := by
    rw [Span.length] at hlt
    rw [Span.mem_iff]
    omega
  refine ⟨fun offset hlt target => h.covers_clip_iff hle hstop (hmem hlt).2, fun offset hlt target => ?_,
    fun offset hlt => ?_⟩
  · rw [(h.clip hle hstop).commit_covers_iff, h.commit_covers_iff]
    exact h.maps_clip_iff hle hstop (hmem hlt).2
  · have hlinks : (t.clip bounds).links = clipMarks bounds t.links := by
      rw [Trace.clip, change_of_open h.isOpen]
      exact congrArg (clipMarks · t.links) (clippedBounds_of_le hle (h.length.symm ▸ hstop))
    rw [linkAt?, hlinks, linkAt?, clipMarks, ← List.filterMap_reverse]
    exact find?_clipMarks (hmem hlt) t.links.reverse

end Trace

/-! ## Parts of texts with their traces -/

namespace TracedText

variable {t : TracedText} {before middle after : List Char}

/-- A text with the traces that another text has from its byte `start` on. -/
structure PartOf (part whole : TracedText) (start : Nat) : Prop where
  objects : part.objects.PartOf whole.objects start part.size
  nodes : part.nodes.PartOf whole.nodes start part.size

open Text (byteCount)

theorem value_slice_middle (h : t.value.toList = before ++ middle ++ after) :
    (t.slice ⟨byteCount before, byteCount before + byteCount middle⟩).value = String.ofList middle :=
  Text.sliceBytes_middle h

/-- What is cut out between characters is a part of the text. -/
theorem Aligned.partOf_slice (ht : t.Aligned) (h : t.value.toList = before ++ middle ++ after) :
    (t.slice ⟨byteCount before, byteCount before + byteCount middle⟩).PartOf t (byteCount before) := by
  have hsize : (t.slice ⟨byteCount before, byteCount before + byteCount middle⟩).size =
      Span.length ⟨byteCount before, byteCount before + byteCount middle⟩ := by
    rw [size, value_slice_middle h, Text.utf8ByteSize_ofList, Span.length, Nat.add_sub_cancel_left]
  have hstop : byteCount before + byteCount middle ≤ t.size := by
    rw [size, ← Text.byteCount_toList, h, Text.byteCount_append, Text.byteCount_append]
    exact Nat.le_add_right ..
  constructor
  · rw [hsize]
    exact ht.objects.partOf_clip (Nat.le_add_right ..) hstop
  · rw [hsize]
    exact ht.nodes.partOf_clip (Nat.le_add_right ..) hstop

end TracedText

end ModelText
