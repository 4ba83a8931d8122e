import ModelText.Proofs.Value.Aligned

/-!
# How texts are put together

Every text of an evaluation is put together by the operations on texts from texts that are made at
once. Such an assembly tells of each byte whether it was copied from a text that a template writes
itself, and for which object. The trace lists every such byte for this object.
-/

namespace ModelText

open Template (NodeRef)

/-! ## Offsets and the targets they are mapped to -/

namespace Trace

variable {T : Type} [DecidableEq T] {t other : Trace T} {size size' offset : Nat} {target : T}

/-- Whether an offset is mapped to a target, by a span or by default. -/
def Maps (t : Trace T) (target : T) (offset : Nat) : Prop :=
  t.Covers target offset ∨ t.default? = some target ∧ offset < t.length

theorem Describes.commit_covers_iff (h : t.Describes size) :
    t.commit.Covers target offset ↔ t.Maps target offset := covers_commit_iff h.isOpen

theorem Describes.fits (h : t.Describes size) (h' : other.Describes size')
    (hfit : size + size' ≤ maxShift) : t.Fits other := by
  have hlength := h.length
  have hlength' := h'.length
  have hmax : maxShift < maxOffset := by decide
  refine ⟨by omega, by omega, fun target offset hc => ?_⟩
  have := h'.inside target offset hc
  omega

omit [DecidableEq T] in
theorem default?_advance (t : Trace T) (written : Nat) (highlight : Option Highlight) :
    (t.advance written highlight).default? = t.default? := by
  unfold advance change
  split
  · rfl
  · split <;> rfl

theorem default?_append (h : t.committed = false) (other : Trace T) :
    (t.append other).default? = t.default? := by
  rw [append_eq h]

theorem Describes.maps_append_left (h : t.Describes size) (h' : other.Describes size')
    (hfit : size + size' ≤ maxShift) (hmaps : t.Maps target offset) :
    (t.append other).Maps target offset := by
  have hlength := (h.append h').length
  rw [Maps, covers_append_iff h.isOpen (h.fits h' hfit) h'.wellFormed, default?_append h.isOpen,
    hlength]
  rcases hmaps with hc | ⟨hdefault, hlt⟩
  · exact Or.inl (Or.inl hc)
  · rw [h.length] at hlt
    exact Or.inr ⟨hdefault, by omega⟩

theorem Describes.maps_append_right (h : t.Describes size) (h' : other.Describes size')
    (hfit : size + size' ≤ maxShift) (hmaps : other.Maps target offset) :
    (t.append other).Maps target (size + offset) := by
  refine Or.inl ((covers_append_iff h.isOpen (h.fits h' hfit) h'.wellFormed).mpr (Or.inr ?_))
  rw [h.length, Nat.add_sub_cancel_left]
  exact ⟨Nat.le_add_right .., hmaps.imp_right (And.imp_right (Nat.add_lt_add_left · size))⟩

theorem Describes.covers_clip_iff (h : t.Describes size) {bounds : Span} (hle : bounds.start ≤ bounds.stop)
    (hstop : bounds.stop ≤ size) (hlt : offset + bounds.start < bounds.stop) :
    (t.clip bounds).Covers target offset ↔ t.Covers target (offset + bounds.start) := by
  rw [Trace.covers_clip_iff h.wellFormed h.isOpen, clippedBounds_of_le hle (h.length.symm ▸ hstop)]
  exact and_iff_left hlt

theorem Describes.maps_clip_iff (h : t.Describes size) {bounds : Span} (hle : bounds.start ≤ bounds.stop)
    (hstop : bounds.stop ≤ size) (hlt : offset + bounds.start < bounds.stop) :
    (t.clip bounds).Maps target offset ↔ t.Maps target (offset + bounds.start) := by
  have hdefault : (t.clip bounds).default? = t.default? := by
    rw [Trace.clip, change_of_open h.isOpen]
  have hwhole : offset + bounds.start < t.length := by
    rw [h.length]
    omega
  have hpart : offset < (t.clip bounds).length := by
    rw [(h.clip hle hstop).length, Span.length]
    omega
  simp only [Maps, h.covers_clip_iff hle hstop hlt, hdefault, hwhole, hpart, and_true]

theorem Describes.maps_indent (h : t.Describes size) {lineStarts : List Nat} {width : Nat}
    (hmaps : t.Maps target offset) :
    (t.indent lineStarts width).Maps target (Ranges.moved lineStarts width offset) := by
  rcases hmaps with hc | ⟨hdefault, hlt⟩
  · refine Or.inl ?_
    rw [Covers, rangesOf_indent h.wellFormed h.isOpen]
    exact (Ranges.covers_indent_moved_iff (h.wellFormed.canonical_rangesOf target)).mpr hc
  · refine Or.inr ⟨?_, ?_⟩
    · rw [Trace.indent, change_of_open h.isOpen]
      split <;> exact hdefault
    · rw [length_indent h.isOpen]
      exact Ranges.moved_lt_moved hlt

end Trace

/-! ## Assemblies -/

/-- A way to put a text together: the operations that made it. -/
inductive Assembly : TracedText → Type
  | string (value : String) (container : Option ObjectId) (origin : Option NodeRef) :
      Assembly (.ofString value container origin)
  | description (text : String) (object : ObjectId) (origin : Option NodeRef) :
      Assembly (.ofObject text object origin)
  | written (content : String) (container : Option ObjectId) (origin : Option NodeRef)
      (highlight : Highlight) : Assembly (.highlighted content container origin highlight)
  | append {t other : TracedText} (front : Assembly t) (back : Assembly other) :
      Assembly (t.append other)
  | slice {t : TracedText} (whole : Assembly t) {bounds : Span}
      (cut : Text.IsCut t.value.toList bounds) : Assembly (t.slice bounds)
  | reword {t : TracedText} (old : Assembly t) (value : String) : Assembly (t.reword value)
  | indent {t : TracedText} (old : Assembly t) (margin : String) (skipFirst : Bool) :
      Assembly (t.indentLines margin skipFirst)
  | mark {t : TracedText} (old : Assembly t) (node : NodeRef) :
      Assembly { t with nodes := t.nodes.add node 0 t.value.utf8ByteSize }

namespace Assembly

/-- The object that a byte was copied for from a text statement. Bytes of another wording take the
place of those of the old one when their number is the same; inserted margins are not copied. -/
def copiedFor? {t : TracedText} : Assembly t → Nat → Option ObjectId
  | .string _ _ _, _ | .description _ _ _, _ => none
  | .written content container _ highlight, offset =>
    if highlight = .staticText ∧ offset < content.utf8ByteSize then container else none
  | @append t _ front back, offset =>
    if offset < t.size then front.copiedFor? offset else back.copiedFor? (offset - t.size)
  | @slice _ whole bounds _, offset =>
    if offset + bounds.start < bounds.stop then whole.copiedFor? (offset + bounds.start) else none
  | @reword t old value, offset =>
    if value.utf8ByteSize = t.size then old.copiedFor? offset else none
  | @indent t old margin skipFirst, offset =>
    ((List.range t.size).find? fun before =>
      Ranges.moved (Text.lineStarts skipFirst t.value) margin.utf8ByteSize before = offset).bind
        old.copiedFor?
  | .mark old _, offset => old.copiedFor? offset

/-- Whether texts that are put together are never longer than offsets can tell. -/
def Fits {t : TracedText} : Assembly t → Prop
  | .string _ _ _ | .description _ _ _ | .written _ _ _ _ => True
  | @append t other front back =>
    front.Fits ∧ back.Fits ∧ t.size + other.size ≤ maxShift
  | .slice whole _ => whole.Fits
  | .reword old _ | .indent old _ _ | .mark old _ => old.Fits

open TracedText (Aligned textClass_aligned)

theorem aligned {t : TracedText} (x : Assembly t) : t.Aligned := by
  induction x with
  | string value container origin => exact textClass_aligned.ofString value container origin
  | description text object origin => exact textClass_aligned.ofObject text object origin
  | written content container origin highlight =>
    exact textClass_aligned.highlighted content container origin highlight
  | append _ _ ih ih' => exact textClass_aligned.append ih ih'
  | slice _ cut ih => exact ih.slice cut
  | reword _ value ih => exact ih.reword value
  | indent _ margin skipFirst ih => exact ih.indentLines margin skipFirst
  | mark _ node ih => exact textClass_aligned.mark node ih

/-- A byte that was copied from a text statement for an object is mapped to this object. -/
theorem maps_of_copiedFor? {t : TracedText} (x : Assembly t) (hfits : x.Fits) {offset : Nat}
    {object : ObjectId} (h : x.copiedFor? offset = some object) : t.objects.Maps object offset := by
  induction x generalizing offset with
  | string => cases h
  | description => cases h
  | written content container origin highlight =>
    simp only [copiedFor?] at h
    split at h
    · next hstatic =>
      refine Or.inr ⟨?_, ?_⟩
      · exact (Trace.default?_advance _ _ _).trans h
      · rw [(textClass_aligned.highlighted content container origin highlight).objects.length]
        exact hstatic.2
    · cases h
  | @append t other front back ih ih' =>
    obtain ⟨hfront, hback, hsize⟩ := hfits
    simp only [copiedFor?] at h
    split at h
    · exact front.aligned.objects.maps_append_left back.aligned.objects hsize (ih hfront h)
    · next hle =>
      have := front.aligned.objects.maps_append_right back.aligned.objects hsize (ih' hback h)
      rwa [Nat.add_sub_cancel' (Nat.le_of_not_lt hle)] at this
  | @slice t whole bounds cut ih =>
    simp only [copiedFor?] at h
    split at h
    · next hlt =>
      have hstop := cut.stop.le
      rw [Text.byteCount_toList] at hstop
      exact (whole.aligned.objects.maps_clip_iff cut.start_le_stop hstop hlt).mpr (ih hfits h)
    · cases h
  | reword old value ih =>
    simp only [copiedFor?] at h
    split at h
    · next hsize =>
      rw [TracedText.reword, if_pos hsize]
      exact ih hfits h
    · cases h
  | indent old margin skipFirst ih =>
    obtain ⟨before, hbefore, hcopied⟩ := Option.bind_eq_some_iff.mp h
    have hmoved := List.find?_some hbefore
    rw [← of_decide_eq_true hmoved]
    exact old.aligned.objects.maps_indent (ih hfits hcopied)
  | mark old node ih => exact ih hfits h

end Assembly

/-- Every operation on texts puts assemblies together. -/
theorem TracedText.textClass_assembly : TextClass fun t => Nonempty (Assembly t) where
  ofString value container origin := ⟨.string value container origin⟩
  highlighted value container origin highlight := ⟨.written value container origin highlight⟩
  ofObject description object origin := ⟨.description description object origin⟩
  append := fun ⟨x⟩ ⟨y⟩ => ⟨x.append y⟩
  slice := fun ⟨x⟩ hcut => ⟨x.slice hcut⟩
  reword value := fun ⟨x⟩ => ⟨x.reword value⟩
  indentLines margin skipFirst := fun ⟨x⟩ => ⟨x.indent margin skipFirst⟩
  mark node := fun ⟨x⟩ => ⟨x.mark node⟩

end ModelText
