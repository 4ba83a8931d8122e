import ModelText.Proofs.Evaluation.Calls
import ModelText.Proofs.Value.Marked

/-!
# Texts and their traces never drift apart

A text comes from the operations on texts, from values that are converted and accumulated, from
services, and from evaluations whose answers and whose state hold more texts. However these follow
one another, both traces of a text describe exactly its bytes.
-/

namespace ModelText

open Template (NodeRef)

/-- The texts in a value. -/
def Value.texts : Value → List TracedText
  | .scalar s => (Value.scalar s).text?.toList
  | .list l => l.items.filterMap fun item => (Value.scalar item.value).text?

theorem Scalar.all_iff {P : TracedText → Prop} {s : Scalar} :
    s.All P ↔ ∀ t, (Value.scalar s).text? = some t → P t := by
  cases s <;> simp [Scalar.All, Value.text?]

theorem Value.all_iff {P : TracedText → Prop} {value : Value} :
    value.All P ↔ ∀ t ∈ value.texts, P t := by
  cases value with
  | scalar s =>
    simp only [Value.All, Value.texts, Scalar.all_iff, Option.mem_toList]
  | list l =>
    simp only [Value.All, Value.texts, ItemList.All, Scalar.all_iff, List.mem_filterMap]
    exact ⟨fun h t ⟨item, hitem, ht⟩ => h item hitem t ht, fun h item hitem t ht => h t ⟨item, hitem, ht⟩⟩

namespace Evaluation

/-- The texts in an answer. -/
def Answer.texts : Answer → List TracedText
  | .datum d => d.value.texts
  | .path _ => []

/-- The texts that a call passes on. -/
def Call.texts : Call → List TracedText
  | .script _ current args => current.value.texts ++ args.flatMap (·.value.texts)
  | .render _ _ | .path _ _ => []

/-- The texts that a state holds: in its frames and in its cache. -/
def State.texts (s : State) : List TracedText :=
  s.frames.flatMap (fun frame => frame.node.value.texts ++ frame.args.flatMap (·.value.texts)) ++
    s.cache.flatMap fun entry => entry.2.value.texts

/-- The texts that there are after a call: in its answer, if there is one, and in the state. -/
def textsAfter (outcome : Except Stop Answer × State) : List TracedText :=
  (outcome.1.toOption.map Answer.texts).getD [] ++ outcome.2.texts

variable {P : TracedText → Prop}

theorem Call.all_of_texts {call : Call} (h : ∀ t ∈ call.texts, P t) : call.All P := by
  cases call with
  | script ref current args =>
    obtain ⟨hcurrent, hargs⟩ := List.forall_mem_append.mp h
    refine ⟨Value.all_iff.mpr hcurrent, fun arg harg => Value.all_iff.mpr fun t ht => ?_⟩
    exact hargs t (List.mem_flatMap.mpr ⟨arg, harg, ht⟩)
  | render name object => trivial
  | path ref object => trivial

theorem holds_iff_texts {s : State} : Holds P (fun _ => True) s ↔ ∀ t ∈ s.texts, P t := by
  constructor
  · rintro ⟨hframes, hcache, -⟩ t ht
    rcases List.mem_append.mp ht with ht | ht
    · obtain ⟨frame, hframe, ht⟩ := List.mem_flatMap.mp ht
      rcases List.mem_append.mp ht with ht | ht
      · exact Value.all_iff.mp (hframes frame hframe).node t ht
      · obtain ⟨arg, harg, ht⟩ := List.mem_flatMap.mp ht
        exact Value.all_iff.mp ((hframes frame hframe).args arg harg) t ht
    · obtain ⟨entry, hentry, ht⟩ := List.mem_flatMap.mp ht
      exact Value.all_iff.mp (hcache entry hentry) t ht
  · intro h
    obtain ⟨hframes, hcache⟩ := List.forall_mem_append.mp h
    refine ⟨fun frame hframe => ?_, fun entry hentry => Value.all_iff.mpr fun t ht => ?_, trivial⟩
    · obtain ⟨hnode, hargs⟩ := List.forall_mem_append.mp fun t ht =>
        hframes t (List.mem_flatMap.mpr ⟨frame, hframe, ht⟩)
      refine ⟨Value.all_iff.mpr hnode, fun arg harg => Value.all_iff.mpr fun t ht => ?_⟩
      exact hargs t (List.mem_flatMap.mpr ⟨arg, harg, ht⟩)
    · exact hcache t (List.mem_flatMap.mpr ⟨entry, hentry, ht⟩)

/-- A call whose texts and whose state satisfy a property of texts leaves such texts. -/
theorem forall_textsAfter (hP : TextClass P) {env : Env} (henv : env.generator.serviceSets = [])
    {call : Call} (hcall : ∀ t ∈ call.texts, P t) {s : State} (hs : ∀ t ∈ s.texts, P t) :
    ∀ t ∈ textsAfter (call.perform env s), P t := by
  obtain ⟨hstate, hanswer⟩ := keeps_perform (closed_of_builtins hP henv)
    (Call.all_of_texts hcall) s (holds_iff_texts.mpr hs)
  refine List.forall_mem_append.mpr ⟨?_, holds_iff_texts.mp hstate⟩
  cases hresult : (call.perform env s).1 with
  | error stop => simp [Except.toOption]
  | ok answer =>
    cases answer with
    | datum d => exact Value.all_iff.mp (hanswer _ hresult)
    | path path => simp [Except.toOption, Answer.texts]

end Evaluation

namespace TracedText

/-- The texts that the operations, the services that every script sees and evaluations without other
services make, in any order. -/
inductive Reachable : TracedText → Prop
  | ofString (value : String) (container : Option ObjectId) (origin : Option NodeRef) :
      Reachable (.ofString value container origin)
  | highlighted (value : String) (container : Option ObjectId) (origin : Option NodeRef)
      (highlight : Highlight) : Reachable (.highlighted value container origin highlight)
  | toText (a : Accessor) {d : Datum} (hd : ∀ t ∈ d.value.texts, Reachable t) :
      Reachable (d.toText a)
  | accumulate (a : Accessor) {d other : Datum} (hd : ∀ t ∈ d.value.texts, Reachable t)
      (hother : ∀ t ∈ other.value.texts, Reachable t) {t : TracedText}
      (ht : t ∈ (d.append a other).value.texts) : Reachable t
  | append {t other : TracedText} (ht : Reachable t) (hother : Reachable other) :
      Reachable (t.append other)
  | slice {t : TracedText} (ht : Reachable t) {bounds : Span}
      (hcut : Text.IsCut t.value.toList bounds) : Reachable (t.slice bounds)
  | trim {t : TracedText} (ht : Reachable t) : Reachable t.trim
  | toUpper {t : TracedText} (ht : Reachable t) : Reachable t.toUpper
  | toLower {t : TracedText} (ht : Reachable t) : Reachable t.toLower
  | capitalize {t : TracedText} (ht : Reachable t) : Reachable t.capitalize
  | uncapitalize {t : TracedText} (ht : Reachable t) : Reachable t.uncapitalize
  | indentLines {t : TracedText} (ht : Reachable t) (margin : String) (skipFirst : Bool) :
      Reachable (t.indentLines margin skipFirst)
  | service {service : Service} (hservice : service ∈ Service.builtins.services) (a : Accessor)
      {d : Datum} (hd : ∀ t ∈ d.value.texts, Reachable t) {args : List Datum}
      (hargs : ∀ arg ∈ args, ∀ t ∈ arg.value.texts, Reachable t) {out : Datum}
      (hout : service.run a d args = .ok out) {t : TracedText} (ht : t ∈ out.value.texts) :
      Reachable t
  | evaluate {env : Evaluation.Env} (henv : env.generator.serviceSets = [])
      {call : Evaluation.Call} (hcall : ∀ t ∈ call.texts, Reachable t)
      {s : Evaluation.State} (hs : ∀ t ∈ s.texts, Reachable t) {t : TracedText}
      (ht : t ∈ Evaluation.textsAfter (call.perform env s)) : Reachable t

/-- A property that the operations on texts keep holds of all texts that can be made. -/
theorem Reachable.of_textClass {P : TracedText → Prop} (hP : TextClass P) {t : TracedText}
    (h : t.Reachable) : P t := by
  induction h with
  | ofString value container origin => exact hP.ofString value container origin
  | highlighted value container origin highlight =>
    exact hP.highlighted value container origin highlight
  | toText a hd ih => exact Datum.All.toText hP a (Value.all_iff.mpr ih)
  | accumulate a hd hother ht ihd ihother =>
    have hall := Datum.All.append hP a (Value.all_iff.mpr ihd) (Value.all_iff.mpr ihother)
    exact Value.all_iff.mp hall _ ht
  | append ht hother iht ihother => exact hP.append iht ihother
  | slice ht hcut ih => exact hP.slice ih hcut
  | trim ht ih => exact hP.slice ih (Text.isCut_trimSpan _)
  | toUpper ht ih | toLower ht ih | capitalize ht ih | uncapitalize ht ih => exact hP.reword _ ih
  | indentLines ht margin skipFirst ih => exact hP.indentLines margin skipFirst ih
  | service hservice a hd hargs hout ht ihd ihargs =>
    have hall := Service.preserves_builtins hP _ hservice a _ _ _ (Value.all_iff.mpr ihd)
      (fun arg harg => Value.all_iff.mpr (ihargs arg harg)) hout
    exact Value.all_iff.mp hall _ ht
  | evaluate henv hcall hs ht ihcall ihs =>
    exact Evaluation.forall_textsAfter hP henv ihcall ihs _ ht

/-- Both traces of a text have its length in bytes and are open. Unless the text has more bytes than
spans are moved over, every range, highlight and link in them is a non-empty part of the text. -/
theorem Reachable.traces_in_step {t : TracedText} (h : t.Reachable) :
    t.objects.length = t.value.utf8ByteSize ∧ t.nodes.length = t.value.utf8ByteSize ∧
      t.objects.committed = false ∧ t.nodes.committed = false ∧
      ((∀ entry ∈ t.objects.entries, entry.1.Inside t.value.utf8ByteSize) ∧
        ∀ entry ∈ t.nodes.entries, entry.1.Inside t.value.utf8ByteSize) ∧
      (t.value.utf8ByteSize ≤ maxShift →
        t.objects.Marked t.value.utf8ByteSize ∧ t.nodes.Marked t.value.utf8ByteSize) := by
  have hstep : t.InStep := h.of_textClass textClass_inStep
  obtain ⟨⟨hobjects, hnodes⟩, hmarkedObjects, hmarkedNodes⟩ := hstep
  exact ⟨hobjects.length, hnodes.length, hobjects.isOpen, hnodes.isOpen,
    ⟨fun _ => hobjects.inside_of_mem_entries, fun _ => hnodes.inside_of_mem_entries⟩,
    fun hfit => ⟨hmarkedObjects hfit, hmarkedNodes hfit⟩⟩

/-- Two texts, the first of which a template wrote, indented and trimmed. -/
theorem traces_in_step_indented :
    let t := (((highlighted "a\nb" (some 1) none .staticText).append
      (ofString "é" (some 2) none)).indentLines "  " false).trim
    t.Reachable ∧ t.value = "a\n  bé" ∧ t.objects.length = 7 ∧ t.nodes.length = 7 ∧
      t.objects.committed = false ∧ t.nodes.committed = false ∧
      ((∀ entry ∈ t.objects.entries, entry.1.Inside 7) ∧
        ∀ entry ∈ t.nodes.entries, entry.1.Inside 7) ∧
      t.objects.Marked 7 ∧ t.nodes.Marked 7 := by
  intro t
  have hreachable : t.Reachable :=
    (((Reachable.highlighted "a\nb" (some 1) none .staticText).append
      (.ofString "é" (some 2) none)).indentLines "  " false).trim
  have hvalue : t.value = "a\n  bé" := by decide +kernel
  have h := hreachable.traces_in_step
  rw [show t.value.utf8ByteSize = 7 by rw [hvalue]; decide] at h
  obtain ⟨hobjects, hnodes, hopen, hopen', hentries, hmarked⟩ := h
  exact ⟨hreachable, hvalue, hobjects, hnodes, hopen, hopen', hentries, hmarked (by decide)⟩

end TracedText

end ModelText
