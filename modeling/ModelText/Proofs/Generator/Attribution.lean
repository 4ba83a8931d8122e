import ModelText.Proofs.Generator.Traceable
import ModelText.Proofs.Trace.Narrowest
import ModelText.Proofs.Value.Assembly

/-!
# The object of a rendered byte

A byte that was copied from a text statement is mapped to the object that was current there, however
loops and script calls are nested. The query for the byte answers this object unless the span of
another object around the byte is narrower, or ranks before it among equally narrow ones.
-/

namespace ModelText

deriving instance DecidableEq for Trace, TracedText

namespace Generator

/-- Every rendered text is an assembly, and the query for a byte that was copied for an object answers
this object exactly when no other object has a span around the byte that outranks its own. -/
theorem targetAt?_copied_iff (config : GeneratorConfig) {history : List Request}
    (hhistory : ∀ request ∈ history, request.registers = false) (a : Accessor) (name : String)
    (object : ObjectId) {t : TracedText}
    (ht : (({ config } : Generator).after history).renderText? a name object = some t) :
    Nonempty (Assembly t) ∧
      ∀ x : Assembly t, x.Fits → ∀ offset own, x.copiedFor? offset = some own →
        (t.objects.targetAt? offset = some own ↔ ∀ s ∈ t.objects.spansOf own, offset ∈ s →
          ∀ other, other ≠ own → ∀ s' ∈ t.objects.spansOf other, offset ∈ s' →
            Trace.outranks (s, own) (s', other) = true) := by
  constructor
  · exact ((plain_new config).after hhistory).renderText TracedText.textClass_assembly ht
  · intro x hfits offset own hcopied
    have hobjects := x.aligned.objects
    exact Trace.targetAt?_eq_some_iff_of_covers hobjects.wellFormed
      (hobjects.commit_covers_iff.mpr (x.maps_of_copiedFor? hfits hcopied))

/-- The assembly of a text `kp!` for the object 0, of which `k` was made for the object 1 in a loop,
and `p` for the object 0 by a script that is called in this loop. -/
def noteAssembly : (t : TracedText) × Assembly t :=
  let note := (Assembly.string "" (some 0) none).append
    (.written "p" (some 0) (some ⟨1, 0⟩) .staticText)
  let pass := ((Assembly.string "" (some 1) none).append
    (.written "k" (some 1) (some ⟨0, 6⟩) .staticText)).append (note.mark ⟨0, 5⟩)
  let loop := (Assembly.string "" (some 0) none).append pass
  ⟨_, ((Assembly.string "" (some 0) none).append loop).append
    (.written "!" (some 0) (some ⟨0, 9⟩) .staticText)⟩

/-- A script that calls a script of the outer object in a loop. -/
def noteHistory : List Request :=
  [.addTemplate "main" "<%for (kids)\x7b%>k<%owner.note%><%\x7d%>!", .addTemplate "note" "p"]

/-- An object with a kid that knows it. -/
def noteModel : Accessor :=
  { model := { objects := #[{ typeName := "P", features := [("kids", .list [.object 1])] },
      { typeName := "K", features := [("owner", .object 0)] }] } }

theorem renderText?_note :
    (({ config := { autoIndent := .never } } : Generator).after noteHistory).renderText?
      noteModel "main" 0 = some noteAssembly.1 := by
  decide +kernel

/-- The text of the loop itself, which belongs to its object. -/
theorem targetAt?_copied_iff_note :
    let t := noteAssembly.1
    (({ config := { autoIndent := .never } } : Generator).after noteHistory).renderText? noteModel "main" 0 = some t ∧
      noteAssembly.2.copiedFor? 0 = some 1 ∧
      (t.objects.targetAt? 0 = some 1 ↔ ∀ s ∈ t.objects.spansOf 1, 0 ∈ s → ∀ other, other ≠ 1 →
        ∀ s' ∈ t.objects.spansOf other, 0 ∈ s' → Trace.outranks (s, 1) (s', other) = true) := by
  have hhistory : ∀ request ∈ noteHistory, request.registers = false := by
    simp [noteHistory, Request.registers]
  have hcopied : noteAssembly.2.copiedFor? 0 = some 1 := by decide +kernel
  have hfits : noteAssembly.2.Fits := by
    simp [noteAssembly, Assembly.Fits]
    decide
  exact ⟨renderText?_note, hcopied,
    (targetAt?_copied_iff { autoIndent := .never } hhistory noteModel "main" 0 renderText?_note).2
      noteAssembly.2 hfits 0 1 hcopied⟩

/-- A text of the outer object inside of the loop is taken for one of the object of the loop. -/
theorem targetAt?_copied_ne : ¬ ∀ (config : GeneratorConfig) (history : List Request),
    config.autoIndent = .never → (∀ request ∈ history, request.registers = false) →
    (∀ file ∈ (({ config } : Generator).after history).files, ∀ script ∈ file.scripts,
      script.post = none) →
    ∀ (a : Accessor) (name : String) (object : ObjectId) (t : TracedText),
      (({ config } : Generator).after history).renderText? a name object = some t →
      ∀ (x : Assembly t) (offset : Nat) (own : ObjectId), x.copiedFor? offset = some own →
        t.objects.targetAt? offset = some own := by
  intro h
  have hposts : (({ config := { autoIndent := .never } } : Generator).after noteHistory).files.all
      (·.scripts.all (·.post.isNone)) = true := by
    decide +kernel
  have htarget := h { autoIndent := .never } noteHistory rfl
    (by simp [noteHistory, Request.registers])
    (fun file hfile script hscript => Option.isNone_iff_eq_none.mp
      (List.all_eq_true.mp (Array.all_eq_true_iff_forall_mem.mp hposts file hfile) script hscript))
    noteModel "main" 0 _ renderText?_note noteAssembly.2 1 0 (by decide +kernel)
  revert htarget
  decide +kernel

end Generator

end ModelText
