import ModelText.Proofs.Evaluation.Texts
import ModelText.Proofs.Evaluation.Traced
import ModelText.Proofs.Script.File

/-!
# Statements mark what they yield

In a well sorted tree every statement of a body is text, a comment, a feature or a block. Text and
features give their node to what they yield, so the outcome of a body is sound.
-/

namespace ModelText.Evaluation

open Template (NodeId NodeKind)
open TracedText (Aligned textClass_aligned)

variable {env : Env} {recur : Recur} {observe : Observe} {scope : Scope} {M : Script.Memo → Prop}

/-- A step that keeps the state good and yields a sound outcome. -/
abbrev YieldsSound (M : Script.Memo → Prop) (x : Eval Outcome) : Prop :=
  Keeps (Holds Aligned M) Outcome.Sound x

/-! ## Values of statements -/

theorem sound_nothing (current : Datum) : (Outcome.value (nothing current)).Sound :=
  .value trivial (Or.inl rfl) fun _ h => nomatch h

theorem sound_plainText (content : String) (source : Template.NodeRef) (current : Datum) :
    (Outcome.value (plainText content source current)).Sound := by
  refine .value (all_plainText textClass_aligned content source current) (Or.inr (Or.inl rfl)) ?_
  intro t ht
  cases ht
  exact Or.inl rfl

theorem sound_featureResult (id expression : NodeId) {d : Datum} (hd : Datum.All Aligned d) :
    (Outcome.value (featureResult scope id expression d)).Sound := by
  refine .value (all_featureResult textClass_aligned scope id expression hd)
    (Or.inr (Or.inr rfl)) fun t ht => ?_
  obtain ⟨value, container, origin, log⟩ := d
  cases value with
  | list l => cases ht
  | scalar s =>
    cases s with
    | text own =>
      cases ht
      exact TracedText.Aligned.uniform_mark hd _
    | _ => cases ht

/-- Indenting the inner lines of a value keeps it sound. -/
theorem sound_indentResult (previous : Option String) {d : Datum}
    (h : (Outcome.value d).Sound) : (Outcome.value (indentResult previous d)).Sound := by
  cases h with
  | value all placed uniform =>
    refine .value (all_indentResult textClass_aligned previous all) ?_ ?_
    · unfold indentResult
      split
      · split
        · exact Or.inr (Or.inl rfl)
        · exact placed
      · exact placed
    · unfold indentResult
      split
      · next t margin hvalue _ =>
        have ht : t.Aligned := by
          unfold Datum.All at all
          rw [hvalue] at all
          exact all
        split
        · intro u hu
          cases hu
          exact (uniform t hvalue).indentLines ht margin
        · exact uniform
      · exact uniform

/-! ## Statements -/

section Statements

variable (hrecur : ∀ task, task.All Aligned → Yields Aligned M (recur task))
  (hobserve : ∀ body current, scope.file.tree.IsBody body → Datum.All Aligned current →
    YieldsSound M (observe scope body current))

include hrecur hobserve

omit hrecur in
theorem keeps_loopOutcomes {body : NodeId} (hbody : scope.file.tree.IsBody body) (index : Nat)
    {items : List Item} (hitems : ∀ item ∈ items, item.value.All Aligned) :
    Keeps (Holds Aligned M) (fun parts => ∀ part ∈ parts, part.Sound)
      (loopOutcomes observe scope body index items) := by
  induction items generalizing index with
  | nil => exact Keeps.pure (by simp)
  | cons item rest ih =>
    have hitem : Datum.All Aligned item.toDatum := hitems item (by simp)
    refine Keeps.bind (keeps_withFrame ⟨hitem, by simp⟩ (hobserve body _ hbody hitem))
      fun pass hpass => ?_
    refine Keeps.bind (ih _ fun other h => hitems other (by simp [h])) fun passes hpasses => ?_
    exact Keeps.pure (List.forall_mem_cons.mpr ⟨hpass, hpasses⟩)

theorem yieldsSound_branchOutcome {current : Datum} (hcurrent : Datum.All Aligned current)
    {pairs : List (NodeId × NodeId)} {otherwise : Option NodeId}
    (hpairs : ∀ pair ∈ pairs, scope.file.tree.IsBody pair.2)
    (hotherwise : ∀ body ∈ otherwise, scope.file.tree.IsBody body) :
    YieldsSound M (branchOutcome recur observe scope current pairs otherwise) := by
  induction pairs with
  | nil =>
    cases otherwise with
    | none => exact Keeps.pure (sound_nothing current)
    | some body => exact hobserve body current (hotherwise body rfl) hcurrent
  | cons pair rest ih =>
    refine Keeps.bind (hrecur _ ⟨hcurrent, hcurrent⟩) fun holds _ => ?_
    split
    · exact hobserve _ current (hpairs pair (by simp)) hcurrent
    · exact ih fun other h => hpairs other (by simp [h])

/-- The outcome of a statement is sound, and that of a feature is one value. -/
theorem keeps_statementOutcome (env : Env) (hsorted : scope.file.tree.WellSorted) {id : NodeId}
    (hid : scope.file.tree.IsStatement id) {current : Datum}
    (hcurrent : Datum.All Aligned current) :
    Keeps (Holds Aligned M) (fun part => part.Sound ∧
        ((∃ expression, scope.kind? id = some (.feature expression)) → ∃ d, part = .value d))
      (statementOutcome env recur observe scope id current) := by
  obtain ⟨kind, hkind, hstatement⟩ := hid
  have hkind : scope.kind? id = some kind := hkind
  have hbodies := hsorted.bodies id kind hkind
  unfold statementOutcome
  cases kind with
  | text content =>
    simp only [hkind, statement]
    exact Keeps.bind (Keeps.pure rfl) fun d hd =>
      Keeps.pure ⟨hd ▸ sound_plainText content _ current, fun _ => ⟨d, rfl⟩⟩
  | comment content =>
    simp only [hkind, statement]
    exact Keeps.bind (Keeps.pure rfl) fun d hd =>
      Keeps.pure ⟨hd ▸ sound_nothing current, fun _ => ⟨d, rfl⟩⟩
  | feature expression =>
    simp only [hkind, statement]
    refine Keeps.bind (P := fun d => (Outcome.value d).Sound) ?_ fun d hd =>
      Keeps.pure ⟨hd, fun _ => ⟨d, rfl⟩⟩
    exact Keeps.bind (hrecur _ ⟨hcurrent, hcurrent⟩) fun d hd =>
      Keeps.pure (sound_featureResult id expression hd)
  | forLoop iterator body =>
    simp only [hkind]
    refine Keeps.bind (hrecur _ ⟨hcurrent, hcurrent⟩) fun items hitems => ?_
    refine Keeps.bind (keeps_loopOutcomes hobserve (hbodies body (by simp [NodeKind.bodies])) 0
      (Datum.All.toItems hitems)) fun passes hpasses => ?_
    exact Keeps.pure ⟨.block hpasses, by simp⟩
  | ifElse condition body elseIfs otherwise =>
    simp only [hkind]
    refine (yieldsSound_branchOutcome hrecur hobserve hcurrent ?_ ?_).mono
      fun part hpart => ⟨hpart, by simp⟩
    · rintro pair hpair
      rcases List.mem_cons.mp hpair with rfl | hpair
      · exact hbodies _ (by simp [NodeKind.bodies])
      · refine hbodies _ ?_
        simp only [NodeKind.bodies, List.mem_cons, List.mem_append, List.mem_map,
          List.cons_append]
        exact Or.inr (Or.inl ⟨pair, hpair, rfl⟩)
    · intro other hother
      refine hbodies _ ?_
      simp only [NodeKind.bodies, List.mem_cons, List.mem_append, Option.mem_toList,
        List.cons_append]
      exact Or.inr (Or.inr hother)
  | _ => cases hstatement

theorem keeps_bodyOutcomes (hsorted : scope.file.tree.WellSorted) {ids : List NodeId}
    (hids : ∀ id ∈ ids, scope.file.tree.IsStatement id) {current : Datum}
    (hcurrent : Datum.All Aligned current) (previous : Option String) (result : Datum) :
    Keeps (Holds Aligned M) (fun parts => ∀ part ∈ parts, part.Sound)
      (bodyOutcomes env recur observe scope current ids previous result) := by
  induction ids generalizing previous result with
  | nil => exact Keeps.pure (by simp)
  | cons id rest ih =>
    unfold bodyOutcomes
    extract_lets kind text
    split
    · exact Keeps.pure (by simp)
    have hlocated := (keeps_statementOutcome hrecur hobserve env hsorted
      (hids id (by simp)) hcurrent).locating fun failure =>
        failure.located (scope.file.tree.span id) (some scope.script.name)
          (current.value.object?.map env.model.describe)
    refine Keeps.bind hlocated fun part hpart => ?_
    extract_lets indented
    have hindented : indented.Sound := by
      simp only [indented]
      split
      · next hindents =>
        have hfeature : ∃ expression, scope.kind? id = some (.feature expression) := by
          simp only [indentsStatement, Bool.and_eq_true] at hindents
          cases hkind : scope.kind? id with
          | none => simp [kind, hkind] at hindents
          | some own =>
            cases own with
            | feature expression => exact ⟨expression, rfl⟩
            | _ => simp [kind, hkind] at hindents
        obtain ⟨d, rfl⟩ := hpart.2 hfeature
        exact sound_indentResult previous hpart.1
      · exact hpart.1
    refine Keeps.bind (ih (fun other h => hids other (by simp [h])) _ _) fun parts hparts => ?_
    exact Keeps.pure (List.forall_mem_cons.mpr ⟨hindented, hparts⟩)

end Statements

/-! ## Scripts -/

section Scripts

/-- The outcome of a script is that of its body. -/
theorem keeps_scriptOutcome {P : TracedText → Prop} {Q : Outcome → Prop} {ref : Script.Ref}
    {current : Datum} (hcurrent : Datum.All P current)
    (hbody : ∀ file declaration, env.generator.script? ref = some (file, declaration) →
      Keeps (Holds P M) Q (observe ⟨ref.file, file, declaration⟩ declaration.body current)) :
    Keeps (Holds P M) Q (scriptOutcome env observe ref current []) := by
  unfold scriptOutcome
  split
  · exact Keeps.failWith _
  next file declaration hscript =>
  refine Keeps.bind keeps_poll fun _ _ => ?_
  refine Keeps.bind (Keeps.get fun _ hs => hs) fun s _ => ?_
  extract_lets active
  split
  · exact Keeps.fail _
  have hframe : Frame.All P { node := current, script := some ref } := ⟨hcurrent, by simp⟩
  have hrun := keeps_withFrame hframe (hbody file declaration hscript)
  have hentered : Keeps (Holds P M) Q
      (enteredOutcome observe ⟨ref.file, file, declaration⟩ ref current []) := by
    unfold enteredOutcome
    split
    · exact keeps_whileActive hrun
    · exact hrun
  refine Keeps.bind hentered.attempt fun result hresult => ?_
  refine Keeps.bind (Keeps.update fun s hs => ⟨hs.frames, hs.cache, hs.memo⟩) fun _ _ => ?_
  exact Keeps.ofExcept hresult

variable (hc : Closed env Aligned M)
  (hsorted : ∀ ref file declaration, env.generator.script? ref = some (file, declaration) →
    file.tree.WellSorted ∧ file.tree.IsBody declaration.body)

include hc

/-- The outcome of a body of a well sorted tree is sound. -/
theorem yieldsSound_bodyOutcome (fuel : Nat) {scope : Scope} (hsorted : scope.file.tree.WellSorted)
    {body : NodeId} (hbody : scope.file.tree.IsBody body) {current : Datum}
    (hcurrent : Datum.All Aligned current) :
    YieldsSound M (bodyOutcome env fuel scope body current) := by
  induction fuel generalizing body current with
  | zero => exact Keeps.throw _
  | succ fuel ih =>
    refine Keeps.bind (keeps_bodyOutcomes (fun task => yields_run hc fuel)
      (fun body current hbody hcurrent => ih hbody hcurrent) hsorted
      (hsorted.statements body hbody) hcurrent none (nothing current)) fun parts hparts => ?_
    exact Keeps.pure (.block hparts)

include hsorted

theorem yieldsSound_scriptOutcome (fuel : Nat) (ref : Script.Ref) {current : Datum}
    (hcurrent : Datum.All Aligned current) :
    YieldsSound M (scriptOutcome env (bodyOutcome env fuel) ref current []) := by
  refine keeps_scriptOutcome hcurrent fun file declaration hscript => ?_
  obtain ⟨htree, hbody⟩ := hsorted ref file declaration hscript
  exact yieldsSound_bodyOutcome hc fuel htree hbody hcurrent

/-- The outcome of a rendered script is sound. -/
theorem yieldsSound_renderOutcome (name : String) (object : ObjectId) :
    YieldsSound M (renderOutcome env name object) := by
  refine Keeps.bind (keeps_resolveFor hc object name) fun found _ => ?_
  split
  · exact Keeps.failWith _
  · exact yieldsSound_scriptOutcome hc hsorted _ _ trivial

end Scripts

end ModelText.Evaluation
