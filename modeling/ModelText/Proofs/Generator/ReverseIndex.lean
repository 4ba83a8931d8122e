import ModelText.Proofs.Evaluation.Readings
import ModelText.Proofs.Generator.Traceable

/-!
# Bytes that a statement is listed for

A rendered text lists for every template node the spans that came from it. For a body of plain text
and of features of the model, each statement is listed for exactly the bytes that it wrote, with one
exception: a feature that is no text and comes first is listed for the whole text.
-/

namespace ModelText.Generator

open Evaluation (Writes bytesOf leader?)
open Template (NodeId)

/-- Each statement of a body of plain text and features is listed for the bytes that it wrote, and
the leader of the body for all bytes. -/
theorem spansOf_statement (config : GeneratorConfig) (history : List Request) (a : Accessor)
    (name : String) (object : ObjectId) {ref : Script.Ref} {file : Script.File}
    {script : Script.Declaration}
    (href : ((({ config } : Generator).after history).resolve a
      (((({ config } : Generator).after history).env a).typeOf object) name).1 = some ref)
    (hscript : (({ config } : Generator).after history).script? ref = some (file, script))
    (hpost : script.post = none)
    (hindent : config.autoIndent.applies file.kind = false)
    {values : NodeId → FeatureValue}
    (hbody : ∀ id ∈ file.tree.children script.body,
      Writes ((({ config } : Generator).after history).env a) ⟨ref.file, file, script⟩ object id
        (values id))
    {t : TracedText}
    (ht : (({ config } : Generator).after history).renderText? a name object = some t)
    (hsize : t.size ≤ maxShift) {front rest : List NodeId} {id : NodeId}
    (hid : file.tree.children script.body = front ++ id :: rest) :
    t.nodes.spansOf ⟨ref.file, id⟩ =
      if leader? object values (file.tree.children script.body) = some id then Piece.spanOf 0 t.size
      else Piece.spanOf (bytesOf a object values front) (bytesOf a object values (front ++ [id])) := by
  have hindent : (({ config } : Generator).after history).config.autoIndent.applies file.kind =
      false := by
    rw [config_after]
    exact hindent
  have hscriptFor : ∀ s, (({ config } : Generator).after history).scriptFor? a name object = some s →
      s.post = none := by
    simp [scriptFor?, href, hscript, hpost]
  obtain ⟨o, hrun, hvalue⟩ := exists_outcome_of_renderText hscriptFor ht
  obtain ⟨ps, hps, hindexed⟩ := (Evaluation.keeps_renderOutcome_of_writes href hscript hindent
    hbody _ Evaluation.answering_start).2 o (evaluate_eq_ok.mp hrun) t hvalue
  obtain ⟨htree, hisBody⟩ := ((sorted_new config).after history).script hscript
  exact Evaluation.spansOf_of_indexed hps hindexed hsize
    (htree.distinct _ hisBody) hid

/-- Whether a script is a feature that calls `count`, which no service is named, and a text behind it. -/
def countsItems (g : Generator) (file : Script.File) (script : Script.Declaration) : Bool :=
  match file.tree.kind? 0, file.tree.kind? 1, file.tree.kind? 2 with
  | some (.call none "count" none []), some (.feature 0), some (.text " items") =>
    file.tree.children script.body = [1, 2] && script.post.isNone && (g.findService? file "count" 0).isNone
  | _, _, _ => false

/-- A number and a text behind it, with what they write. -/
theorem writes_counted :
    let g := ({ config := { autoIndent := .never } } : Generator).after
      [.addTemplate "t" "<%count%> items"]
    let a : Accessor :=
      { model := { objects := #[{ typeName := "C", features := [("count", .int 3)] }] } }
    ∃ file script, g.script? ⟨0, 0⟩ = some (file, script) ∧ script.post = none ∧
      file.tree.children script.body = [1, 2] ∧
      ∀ id ∈ file.tree.children script.body,
        Writes (g.env a) ⟨0, file, script⟩ 0 id (if id = 1 then .int 3 else .text " items") := by
  intro g a
  have htest : (g.script? ⟨0, 0⟩).any (fun p => g.countsItems p.1 p.2) = true := by decide +kernel
  rcases hscript : g.script? ⟨0, 0⟩ with _ | ⟨file, script⟩
  · rw [hscript] at htest
    cases htest
  simp only [hscript, Option.any_some, countsItems] at htest
  split at htest
  · next hcall hfeature htext =>
    simp only [Bool.and_eq_true, decide_eq_true_eq, Option.isNone_iff_eq_none] at htest
    obtain ⟨⟨hchildren, hpost⟩, hservice⟩ := htest
    have hnames : Evaluation.NamesFeature (g.env a) file "count" 0 :=
      ⟨by decide +kernel, hservice⟩
    have hreads : Evaluation.CallReads (g.env a) ⟨0, file, script⟩ 0 (.object 0) (.int 3) :=
      ⟨hcall, fun _ => by decide, .object (Or.inr ⟨rfl, hnames⟩) rfl (by simp)⟩
    refine ⟨file, script, rfl, hpost, hchildren, ?_⟩
    rw [hchildren]
    intro id hid
    rcases List.mem_pair.mp hid with rfl | rfl
    · exact .feature hfeature (.call hreads)
    · exact .text htext
  · cases htest

/-- The text behind a number is listed for its own bytes. -/
theorem spansOf_statement_items :
    let g := ({ config := { autoIndent := .never } } : Generator).after
      [.addTemplate "t" "<%count%> items"]
    let a : Accessor :=
      { model := { objects := #[{ typeName := "C", features := [("count", .int 3)] }] } }
    ∃ t, g.renderText? a "t" 0 = some t ∧ t.value = "3 items" ∧
      t.nodes.spansOf ⟨0, 2⟩ = [⟨1, 7⟩] := by
  intro g a
  obtain ⟨file, script, hscript, hpost, hchildren, hbody⟩ := writes_counted
  have hvalue : (g.renderText? a "t" 0).map (·.value) = some "3 items" := by decide +kernel
  obtain ⟨t, ht, htext⟩ := Option.map_eq_some_iff.mp hvalue
  have hsize : t.size ≤ maxShift := by
    rw [TracedText.size, htext]
    decide
  have hresolve : (g.resolve a ((g.env a).typeOf 0) "t").1 = some ⟨0, 0⟩ := by decide +kernel
  have hlast : file.tree.children script.body = [1] ++ 2 :: [] := hchildren
  have hspans := spansOf_statement { autoIndent := .never } [.addTemplate "t" "<%count%> items"] a "t" 0
    hresolve hscript hpost rfl hbody ht hsize hlast
  refine ⟨t, ht, htext, hspans.trans ?_⟩
  rw [hchildren, if_neg (by decide)]
  decide +kernel

/-- A number in front of a text is listed for the whole text. -/
theorem spansOf_statement_ne_own : ¬ ∀ (config : GeneratorConfig) (history : List Request)
    (a : Accessor) (name : String) (object : ObjectId) (ref : Script.Ref) (file : Script.File)
    (script : Script.Declaration),
    ((({ config } : Generator).after history).resolve a
      (((({ config } : Generator).after history).env a).typeOf object) name).1 = some ref →
    (({ config } : Generator).after history).script? ref = some (file, script) →
    script.post = none →
    config.autoIndent.applies file.kind = false →
    ∀ values : NodeId → FeatureValue, (∀ id ∈ file.tree.children script.body,
      Writes ((({ config } : Generator).after history).env a) ⟨ref.file, file, script⟩ object id
        (values id)) →
    ∀ t, (({ config } : Generator).after history).renderText? a name object = some t →
    ∀ front rest id, file.tree.children script.body = front ++ id :: rest →
      t.nodes.spansOf ⟨ref.file, id⟩ =
        Piece.spanOf (bytesOf a object values front) (bytesOf a object values (front ++ [id])) := by
  intro h
  let g := ({ config := { autoIndent := .never } } : Generator).after
    [.addTemplate "t" "<%count%> items"]
  let a : Accessor :=
    { model := { objects := #[{ typeName := "C", features := [("count", .int 3)] }] } }
  obtain ⟨file, script, hscript, hpost, hchildren, hbody⟩ := writes_counted
  have hspans : (g.renderText? a "t" 0).map (·.nodes.spansOf ⟨0, 1⟩) = some [⟨0, 7⟩] := by
    decide +kernel
  obtain ⟨t, ht, hspans⟩ := Option.map_eq_some_iff.mp hspans
  have hresolve : (g.resolve a ((g.env a).typeOf 0) "t").1 = some ⟨0, 0⟩ := by decide +kernel
  have hown := h { autoIndent := .never } [.addTemplate "t" "<%count%> items"] a "t" 0 ⟨0, 0⟩ file
    script hresolve hscript hpost rfl _ hbody t ht [] [2] 1 hchildren
  rw [hspans] at hown
  revert hown
  decide +kernel

end ModelText.Generator
