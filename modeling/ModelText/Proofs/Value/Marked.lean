import ModelText.Proofs.Trace.Marks
import ModelText.Proofs.Value.Aligned

/-!
# Highlights and links stay inside their text

A trace marks stretches of its text as highlights and as links. No operation leaves an empty mark or
one that reaches beyond the end of the text, as long as the text has no more bytes than a span can be
moved over.
-/

namespace ModelText

namespace Trace

variable {T : Type} {t other : Trace T} {size : Nat}

/-- Whether every highlight and every link is a non-empty part of a text of `size` bytes. -/
structure Marked (t : Trace T) (size : Nat) : Prop where
  highlights : ∀ mark ∈ t.highlights, mark.1.Inside size
  links : ∀ mark ∈ t.links, mark.1.Inside size

theorem marked_new (default? : Option T) (length size : Nat) :
    Marked { default?, length } size := ⟨by simp, by simp⟩

/-- A change that keeps marks inside, made to an open trace. -/
theorem Marked.change {f : Trace T → Trace T} (hopen : t.committed = false)
    (h : (f t).Marked size) : (t.change f).Marked size := by
  rwa [change_of_open hopen]

theorem Marked.setPendingLink (hopen : t.committed = false) (h : t.Marked size) (target : Option T) :
    (t.setPendingLink target).Marked size :=
  .change hopen ⟨h.highlights, h.links⟩

theorem Marked.advance (hopen : t.committed = false) (hlength : t.length = size)
    (h : t.Marked size) (written : Nat) (highlight : Option Highlight) :
    (t.advance written highlight).Marked (size + written) := by
  apply Marked.change hopen
  split
  · next hzero => rwa [hzero, Nat.add_zero]
  · next hne =>
    have hwritten : (⟨t.length, t.length + written⟩ : Span).Inside (size + written) := by
      simp only [Span.Inside]
      omega
    constructor
    · intro mark hmark
      rcases List.mem_append.mp hmark with hold | hnew
      · exact (h.highlights mark hold).mono (Nat.le_add_right ..)
      · obtain ⟨own, -, rfl⟩ := List.mem_map.mp hnew
        exact hwritten
    · intro mark hmark
      rcases List.mem_append.mp hmark with hold | hnew
      · exact (h.links mark hold).mono (Nat.le_add_right ..)
      · obtain ⟨own, -, rfl⟩ := List.mem_map.mp hnew
        exact hwritten

theorem inside_of_mem_append_moveMarks {α : Type} {marks others : List (Span × α)} {front : Nat}
    (hfit : front + size ≤ maxShift) (hmarks : ∀ mark ∈ marks, mark.1.Inside front)
    (hothers : ∀ mark ∈ others, mark.1.Inside size) :
    ∀ mark ∈ marks ++ moveMarks (min front maxShift : Nat) others, mark.1.Inside (front + size) := by
  intro mark hmark
  rcases List.mem_append.mp hmark with hold | hmoved
  · exact (hmarks mark hold).mono (Nat.le_add_right ..)
  · obtain ⟨own, hown, rfl⟩ := List.mem_map.mp hmoved
    have hmax : maxShift ≤ maxOffset := by decide
    exact (hothers own hown).shift (Nat.le_trans (Nat.le_add_right ..) hfit) (Nat.le_trans hfit hmax)

theorem Marked.append [DecidableEq T] (hopen : t.committed = false) {front : Nat}
    (hlength : t.length = front) (hfit : front + size ≤ maxShift) (h : t.Marked front)
    (h' : other.Marked size) : (t.append other).Marked (front + size) := by
  subst hlength
  rw [append_eq hopen]
  exact ⟨inside_of_mem_append_moveMarks hfit h.highlights h'.highlights,
    inside_of_mem_append_moveMarks hfit h.links h'.links⟩

/-- Whatever the marks were, those of a part of the text are inside the part. -/
theorem marked_clip (hopen : t.committed = false) (bounds : Span) :
    (t.clip bounds).Marked (clippedBounds t.length bounds).length :=
  .change hopen ⟨fun _ => inside_of_mem_clipMarks, fun _ => inside_of_mem_clipMarks⟩

theorem marked_reset (hopen : t.committed = false) (length size : Nat) :
    (t.reset length).Marked size :=
  .change hopen ⟨by simp, by simp⟩

theorem Marked.add [DecidableEq T] (hopen : t.committed = false) (h : t.Marked size) (target : T)
    (start stop : Nat) : (t.add target start stop).Marked size := by
  apply Marked.change hopen
  rw [addSpan_eq]
  exact ⟨h.highlights, h.links⟩

theorem Marked.indent (hopen : t.committed = false) (h : t.Marked size) (lineStarts : List Nat)
    (width : Nat) :
    (t.indent lineStarts width).Marked (size + lineStarts.length * width) := by
  apply Marked.change hopen
  split
  · exact ⟨fun mark hmark => (h.highlights mark hmark).mono (Nat.le_add_right ..),
      fun mark hmark => (h.links mark hmark).mono (Nat.le_add_right ..)⟩
  · constructor
    · intro mark hmark
      obtain ⟨own, hown, rfl⟩ := List.mem_map.mp hmark
      exact (h.highlights own hown).indent lineStarts width
    · intro mark hmark
      obtain ⟨own, hown, rfl⟩ := List.mem_map.mp hmark
      exact (h.links own hown).indent lineStarts width

/-- Every span of a trace that describes a text is a non-empty part of the text. -/
theorem Describes.inside_of_mem_entries [DecidableEq T] (h : t.Describes size) {entry : Span × T}
    (hentry : entry ∈ t.entries) : entry.1.Inside size := by
  have hlt := h.wellFormed.start_lt_stop hentry
  have hlast := h.inside entry.2 (entry.1.stop - 1)
    (h.wellFormed.covers_iff.mpr ⟨entry, hentry, rfl, by omega, by omega⟩)
  exact ⟨hlt, by omega⟩

end Trace

namespace TracedText

/-- Both traces of a text describe it, and their marks are inside unless the text has more bytes than
spans are moved over. -/
structure InStep (t : TracedText) : Prop where
  aligned : t.Aligned
  objects : t.size ≤ maxShift → t.objects.Marked t.size
  nodes : t.size ≤ maxShift → t.nodes.Marked t.size

variable {t other : TracedText}

theorem inStep_ofString (value : String) (container : Option ObjectId)
    (origin : Option Template.NodeRef) : (ofString value container origin).InStep :=
  ⟨textClass_aligned.ofString value container origin, fun _ => Trace.marked_new _ _ _,
    fun _ => Trace.marked_new _ _ _⟩

theorem inStep_highlighted (value : String) (container : Option ObjectId)
    (origin : Option Template.NodeRef) (highlight : Highlight) :
    (highlighted value container origin highlight).InStep := by
  refine ⟨textClass_aligned.highlighted value container origin highlight, fun _ => ?_,
    fun _ => Trace.marked_new _ _ _⟩
  have h := (Trace.marked_new container 0 0).advance rfl rfl value.utf8ByteSize (some highlight)
  rwa [Nat.zero_add] at h

theorem inStep_ofObject (description : String) (object : ObjectId)
    (origin : Option Template.NodeRef) : (ofObject description object origin).InStep := by
  refine ⟨textClass_aligned.ofObject description object origin, fun _ => ?_,
    fun _ => Trace.marked_new _ _ _⟩
  have hnew := Trace.describes_new (some object) 0
  have hlinked := hnew.setPendingLink (some object)
  have hmarked := (Trace.marked_new (some object) 0 0).setPendingLink hnew.isOpen (some object)
  have hwritten := hmarked.advance hlinked.isOpen hlinked.length description.utf8ByteSize none
  have h := hwritten.setPendingLink (hlinked.advance description.utf8ByteSize none).isOpen none
  rwa [Nat.zero_add] at h

theorem InStep.append (h : t.InStep) (h' : other.InStep) : (t.append other).InStep := by
  have hsize : (t.append other).size = t.size + other.size := String.utf8ByteSize_append
  refine ⟨textClass_aligned.append h.aligned h'.aligned, fun hfit => ?_, fun hfit => ?_⟩
  · rw [hsize] at hfit ⊢
    exact Trace.Marked.append h.aligned.objects.isOpen h.aligned.objects.length hfit
      (h.objects (by omega)) (h'.objects (by omega))
  · rw [hsize] at hfit ⊢
    exact Trace.Marked.append h.aligned.nodes.isOpen h.aligned.nodes.length hfit
      (h.nodes (by omega)) (h'.nodes (by omega))

theorem InStep.slice (h : t.InStep) {bounds : Span} (hcut : Text.IsCut t.value.toList bounds) :
    (t.slice bounds).InStep := by
  have haligned := h.aligned.slice hcut
  refine ⟨haligned, fun _ => ?_, fun _ => ?_⟩
  · have hmarked := Trace.marked_clip h.aligned.objects.isOpen bounds
    rwa [← Trace.length_clip h.aligned.objects.isOpen,
      show (t.objects.clip bounds).length = _ from haligned.objects.length] at hmarked
  · have hmarked := Trace.marked_clip h.aligned.nodes.isOpen bounds
    rwa [← Trace.length_clip h.aligned.nodes.isOpen,
      show (t.nodes.clip bounds).length = _ from haligned.nodes.length] at hmarked

theorem InStep.reword (h : t.InStep) (value : String) : (t.reword value).InStep := by
  refine ⟨h.aligned.reword value, ?_, ?_⟩
  · unfold TracedText.reword
    split
    · next hsize =>
      change value.utf8ByteSize ≤ maxShift → t.objects.Marked value.utf8ByteSize
      rw [hsize]
      exact h.objects
    · exact fun _ => Trace.marked_reset h.aligned.objects.isOpen _ _
  · unfold TracedText.reword
    split
    · next hsize =>
      change value.utf8ByteSize ≤ maxShift → t.nodes.Marked value.utf8ByteSize
      rw [hsize]
      exact h.nodes
    · exact fun _ => Trace.marked_reset h.aligned.nodes.isOpen _ _

theorem InStep.indentLines (h : t.InStep) (margin : String) (skipFirst : Bool) :
    (t.indentLines margin skipFirst).InStep := by
  have hsize : (t.indentLines margin skipFirst).size =
      t.size + (Text.lineStarts skipFirst t.value).length * margin.utf8ByteSize :=
    Text.utf8ByteSize_indentLines margin skipFirst t.value
  refine ⟨h.aligned.indentLines margin skipFirst, fun hfit => ?_, fun hfit => ?_⟩
  · rw [hsize] at hfit ⊢
    exact (h.objects (by omega)).indent h.aligned.objects.isOpen _ _
  · rw [hsize] at hfit ⊢
    exact (h.nodes (by omega)).indent h.aligned.nodes.isOpen _ _

/-- Every operation on texts keeps both traces in step with the text. -/
theorem textClass_inStep : TextClass InStep where
  ofString := inStep_ofString
  highlighted := inStep_highlighted
  ofObject := inStep_ofObject
  append h h' := h.append h'
  slice h hcut := h.slice hcut
  reword value h := h.reword value
  indentLines margin skipFirst h := h.indentLines margin skipFirst
  mark node h := ⟨textClass_aligned.mark node h.aligned, h.objects, fun hfit =>
    (h.nodes hfit).add h.aligned.nodes.isOpen node _ _⟩

end TracedText

end ModelText
