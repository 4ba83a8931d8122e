import ModelText.Proofs.Evaluation.Calls
import ModelText.Proofs.Evaluation.Marks
import ModelText.Proofs.Generator.History

/-!
# Template nodes of rendered bytes

Rendering gives a node to every byte of its text except those of items without a node that were
written behind a text. The items of a list feature have none.
-/

namespace ModelText.Generator

open Evaluation (Env Outcome)
open TracedText (Aligned textClass_aligned)

/-- Whether a request registers services. -/
def Request.registers : Request → Bool
  | .registerServices _ => true
  | _ => false

/-- The declaration of the script that renders an object. -/
def scriptFor? (g : Generator) (a : Accessor) (name : String) (object : ObjectId) :
    Option Script.Declaration :=
  ((g.resolve a ((g.env a).typeOf object) name).1.bind g.script?).map (·.2)

/-- The text that a script renders for an object, when it renders one. -/
def renderText? (g : Generator) (a : Accessor) (name : String) (object : ObjectId) :
    Option TracedText :=
  (g.render a name object).1.toOption.bind (·.value.text?)

/-! ## Files of generators -/

/-- The trees of all files of a generator are well sorted. -/
def Sorted (g : Generator) : Prop := ∀ file ∈ g.files, file.WellSorted

theorem Sorted.handle {g : Generator} (h : g.Sorted) (request : Request) : (g.handle request).Sorted :=
  forall_files_handle Script.File.wellSorted_parse Script.File.wellSorted_parseBody h request

theorem Sorted.after {g : Generator} (h : g.Sorted) (history : List Request) : (g.after history).Sorted :=
  forall_files_after Script.File.wellSorted_parse Script.File.wellSorted_parseBody h history

theorem sorted_new (config : GeneratorConfig) : Sorted { config } := by simp [Sorted]

theorem Sorted.script {g : Generator} (h : g.Sorted) {ref : Script.Ref} {file : Script.File}
    {declaration : Script.Declaration} (hscript : g.script? ref = some (file, declaration)) :
    file.tree.WellSorted ∧ file.tree.IsBody declaration.body := by
  obtain ⟨found, hfile, hscript⟩ := Option.bind_eq_some_iff.mp hscript
  obtain ⟨own, hown, heq⟩ := Option.map_eq_some_iff.mp hscript
  cases heq
  have hsorted := h file (Array.mem_of_getElem? hfile)
  exact ⟨hsorted.tree, (hsorted.scripts declaration (List.mem_of_getElem? hown)).1⟩

/-! ## Generators without services of their own -/

/-- The files of a generator are well sorted, and its only services are the built-in ones. -/
structure Plain (g : Generator) : Prop where
  files : g.Sorted
  services : g.serviceSets = []

theorem plain_new (config : GeneratorConfig) : Plain { config } := ⟨sorted_new config, rfl⟩

theorem Plain.handle {g : Generator} (h : g.Plain) {request : Request}
    (hrequest : request.registers = false) : (g.handle request).Plain := by
  refine ⟨h.files.handle request, ?_⟩
  have hadd (file : Script.File) :
      (((g.add file).toOption.map (·.2)).getD g).serviceSets = [] := by
    unfold Generator.add
    split
    · exact h.services
    · split <;> exact h.services
  cases request with
  | addFile name source => exact hadd _
  | addTemplate name source => exact hadd _
  | registerServices set => cases hrequest
  | resolve a typeName name => exact h.services
  | render a name object =>
    simp only [Generator.handle, Generator.render]
    split <;> exact h.services
  | generate a root => exact h.services

theorem Plain.after {g : Generator} (h : g.Plain) {history : List Request}
    (hhistory : ∀ request ∈ history, request.registers = false) : (g.after history).Plain := by
  induction history generalizing g with
  | nil => exact h
  | cons request rest ih =>
    exact ih (h.handle (hhistory request (by simp))) fun other hmem => hhistory other (by simp [hmem])

/-! ## Rendered texts -/

theorem evaluate_eq_ok {g : Generator} {α : Type} {x : Evaluation.Eval α} {value : α} :
    (g.evaluate x).1 = .ok value ↔ (x { memo := g.memo }).1 = .ok value := by
  unfold Generator.evaluate
  change _ ↔ (x.run.run { memo := g.memo }).1 = .ok value
  rcases x.run.run { memo := g.memo } with ⟨(failure | _) | own, s⟩ <;> simp

/-- A rendered text is what the evaluation of the script yields. -/
theorem exists_render_of_renderText {g : Generator} {a : Accessor} {name : String}
    {object : ObjectId} {t : TracedText} (ht : g.renderText? a name object = some t) :
    ∃ d, (Evaluation.render (g.env a) name object { memo := g.memo }).1 = .ok d ∧
      d.value = .scalar (.text t) := by
  obtain ⟨d, hd, htext⟩ := Option.bind_eq_some_iff.mp ht
  have hrender : (g.render a name object).1 = .ok d := by
    cases hresult : (g.render a name object).1 with
    | error e => simp [hresult, Except.toOption] at hd
    | ok value => simpa [hresult, Except.toOption] using hd
  simp only [Generator.render] at hrender
  split at hrender
  · exact ⟨d, evaluate_eq_ok.mp hrender, Value.text?_eq_some_iff.mp htext⟩
  · cases hrender

/-- A rendered text has every property that the operations on texts keep. -/
theorem Plain.renderText {g : Generator} (h : g.Plain) {P : TracedText → Prop} (hP : TextClass P)
    {a : Accessor} {name : String} {object : ObjectId} {t : TracedText}
    (ht : g.renderText? a name object = some t) : P t := by
  obtain ⟨d, hrun, hvalue⟩ := exists_render_of_renderText ht
  have hall := (Evaluation.yields_render (Evaluation.closed_of_builtins hP h.services) name object _
    ⟨by simp, by simp, trivial⟩).2 d hrun
  unfold Datum.All at hall
  rw [hvalue] at hall
  exact hall

/-- The text that is rendered without a post expression is the value of an outcome. -/
theorem exists_outcome_of_renderText {g : Generator} {a : Accessor} {name : String}
    {object : ObjectId} (hpost : ∀ s, g.scriptFor? a name object = some s → s.post = none)
    {t : TracedText} (ht : g.renderText? a name object = some t) :
    ∃ o, (g.evaluate (Evaluation.renderOutcome (g.env a) name object)).1 = .ok o ∧
      (o.result a).value = .scalar (.text t) := by
  obtain ⟨d, hrun, hvalue⟩ := exists_render_of_renderText ht
  have hscript (ref : Script.Ref) (file : Script.File) (declaration : Script.Declaration)
      (hfound : (Evaluation.resolveFor (g.env a) object name { memo := g.memo }).1 = .ok (some ref))
      (href : g.script? ref = some (file, declaration)) : declaration.post = none := by
    refine hpost declaration ?_
    have hfound : (g.resolve a ((g.env a).typeOf object) name).1 = some ref := Except.ok.inj hfound
    simp [scriptFor?, hfound, href]
  rw [Evaluation.render_apply_eq rfl name object _ hscript, Evaluation.Eval.map_apply] at hrun
  rcases houtcome : Evaluation.renderOutcome (g.env a) name object { memo := g.memo } with
    ⟨_ | o, s⟩
  · simp [houtcome] at hrun
  · rw [houtcome] at hrun
    refine ⟨o, evaluate_eq_ok.mpr (by rw [houtcome]), ?_⟩
    cases hrun
    exact hvalue

/-- Every byte of a rendered text has a template node exactly when nothing without a node was written
behind a text. -/
theorem renderText_mapped_iff (config : GeneratorConfig) {history : List Request}
    (hhistory : ∀ request ∈ history, request.registers = false) (a : Accessor) (name : String)
    (object : ObjectId)
    (hpost : ∀ s, (({ config } : Generator).after history).scriptFor? a name object = some s →
      s.post = none)
    {t : TracedText}
    (ht : (({ config } : Generator).after history).renderText? a name object = some t)
    (hsize : t.size ≤ maxShift) :
    ∃ o, ((({ config } : Generator).after history).evaluate (Evaluation.renderOutcome
        ((({ config } : Generator).after history).env a) name object)).1 = .ok o ∧
      (o.result a).value = .scalar (.text t) ∧
      ((∀ offset < t.size, (t.nodes.targetAt? offset).isSome) ↔ o.Traced a) := by
  have hplain := (plain_new config).after hhistory
  obtain ⟨o, hrun, hvalue⟩ := exists_outcome_of_renderText hpost ht
  refine ⟨o, hrun, hvalue, ?_⟩
  have hsound : o.Sound :=
    ((Evaluation.yieldsSound_renderOutcome (Evaluation.closed_of_builtins textClass_aligned hplain.services)
      (fun ref file declaration => hplain.files.script) name object) _ ⟨by simp, by simp, trivial⟩).2 o
        (evaluate_eq_ok.mp hrun)
  have hdescribed := hsound.described (a := a)
  have haligned : t.Aligned := by
    have hall := hdescribed.all
    unfold Datum.All at hall
    rw [hvalue] at hall
    exact hall
  rw [← haligned.whole_iff, ← Datum.mapped_of_text hvalue]
  refine hdescribed.mapped_iff fun own hown => ?_
  rw [hvalue] at hown
  cases hown
  exact hsize

/-- A text feature behind plain text. -/
theorem renderText_mapped_iff_greeting :
    let g := ({} : Generator).after [.addTemplate "t" "a<%name%>"]
    let a : Accessor :=
      { model := { objects := #[{ typeName := "C", features := [("name", .text "x")] }] } }
    ∃ t o, g.renderText? a "t" 0 = some t ∧ t.value = "ax" ∧
      (g.evaluate (Evaluation.renderOutcome (g.env a) "t" 0)).1 = .ok o ∧
      (o.result a).value = .scalar (.text t) ∧
      ((∀ offset < t.size, (t.nodes.targetAt? offset).isSome) ↔ o.Traced a) := by
  intro g a
  have hpost : (g.scriptFor? a "t" 0).all (·.post.isNone) = true := by decide +kernel
  have hvalue : (g.renderText? a "t" 0).map (·.value) = some "ax" := by decide +kernel
  obtain ⟨t, ht, htext⟩ := Option.map_eq_some_iff.mp hvalue
  have hsize : t.size ≤ maxShift := by
    rw [TracedText.size, htext]
    decide
  have hhistory : ∀ request ∈ [Request.addTemplate "t" "a<%name%>"], request.registers = false := by
    simp [Request.registers]
  obtain ⟨o, ho⟩ := renderText_mapped_iff {} hhistory a "t" 0
    (fun s hs => Option.isNone_iff_eq_none.mp ((Option.all_eq_true _ _).mp hpost s hs)) ht hsize
  exact ⟨t, o, ht, htext, ho⟩

/-- An item of a list feature behind plain text has no node. -/
theorem renderText_not_mapped : ¬ ∀ (config : GeneratorConfig) (history : List Request),
    (∀ request ∈ history, request.registers = false) →
    ∀ (a : Accessor) (name : String) (object : ObjectId),
      (∀ s, (({ config } : Generator).after history).scriptFor? a name object = some s →
        s.post = none) →
      ∀ t, (({ config } : Generator).after history).renderText? a name object = some t →
        ∀ offset < t.size, (t.nodes.targetAt? offset).isSome := by
  intro h
  let g := ({} : Generator).after [.addTemplate "t" "a<%names%>"]
  let a : Accessor :=
    { model := { objects := #[{ typeName := "C", features := [("names", .list [.text "x"])] }] } }
  have hpost : (g.scriptFor? a "t" 0).all (·.post.isNone) = true := by decide +kernel
  have hbyte : (g.renderText? a "t" 0).map (fun t => (t.size, t.nodes.targetAt? 1)) =
      some (2, none) := by decide +kernel
  obtain ⟨t, ht, hbyte⟩ := Option.map_eq_some_iff.mp hbyte
  obtain ⟨hsize, hnone⟩ := Prod.mk.inj hbyte
  have hsome := h {} [.addTemplate "t" "a<%names%>"] (by simp [Request.registers]) a "t" 0
    (fun s hs => Option.isNone_iff_eq_none.mp ((Option.all_eq_true _ _).mp hpost s hs)) t ht 1 (by omega)
  rw [hnone] at hsome
  cases hsome

end ModelText.Generator
