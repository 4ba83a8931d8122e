import ModelText.Proofs.Evaluation.Keeps

/-!
# Evaluations that remember their parts

Evaluating a body appends the results of its statements and forgets them. The evaluation here does
the same steps and answers the results as a tree, with one block for each body and each loop. What
the evaluator answers is the tree with its blocks appended.
-/

namespace ModelText.Evaluation

open Template (NodeId NodeKind)

/-- What statements yielded: a value, or the parts of a body or of a loop. -/
inductive Outcome where
  | value (d : Datum)
  | block (current : Datum) (parts : List Outcome)

namespace Outcome

mutual

/-- The value of an outcome: the parts of a block are appended to nothing. -/
def result (a : Accessor) : Outcome → Datum
  | .value d => d
  | .block current parts => (results a parts).foldl (Datum.append a) (nothing current)

/-- The values of outcomes. -/
def results (a : Accessor) : List Outcome → List Datum
  | [] => []
  | part :: rest => part.result a :: results a rest

end

theorem results_eq_map (a : Accessor) (parts : List Outcome) :
    results a parts = parts.map (result a) := by
  induction parts with
  | nil => rfl
  | cons part rest ih => simp [results, ih]

end Outcome

/-- Evaluates the body of a node for an object, and answers its parts. -/
abbrev Observe := Scope → NodeId → Datum → Eval Outcome

variable (env : Env) (recur : Recur) (observe : Observe) (scope : Scope)

/-! ## Statements -/

/-- The outcomes of the passes of a loop. -/
def loopOutcomes (body : NodeId) : Nat → List Item → Eval (List Outcome)
  | _, [] => pure []
  | index, item :: rest => do
    let node := item.toDatum
    let pass ← Eval.withFrame { node, index := some index } (observe scope body node)
    let passes ← loopOutcomes body (index + 1) rest
    pure (pass :: passes)

/-- The outcome of the branch that is taken. -/
def branchOutcome (current : Datum) : List (NodeId × NodeId) → Option NodeId → Eval Outcome
  | [], none => pure (.value (nothing current))
  | [], some body => observe scope body current
  | (condition, body) :: rest, otherwise => do
    let holds ← recur (.expression scope condition current current)
    if holds.value.toBool then observe scope body current
    else branchOutcome current rest otherwise

/-- The outcome of a statement. -/
def statementOutcome (id : NodeId) (current : Datum) : Eval Outcome := do
  match scope.kind? id with
  | some (.forLoop iterator body) =>
    let items ← recur (.expression scope iterator current current)
    let passes ← loopOutcomes observe scope body 0 items.toItems.items
    pure (.block current passes)
  | some (.ifElse condition body elseIfs otherwise) =>
    branchOutcome recur observe scope current ((condition, body) :: elseIfs) otherwise
  | some .template => observe scope id current
  | _ =>
    let d ← statement env recur scope id current
    pure (.value d)

/-- The outcome of a statement; a failure learns where it arose. -/
def locatedOutcome (id : NodeId) (current : Datum) : Eval Outcome :=
  (statementOutcome env recur observe scope id current).locating fun failure =>
    failure.located (scope.file.tree.span id) (some scope.script.name)
      (current.value.object?.map env.model.describe)

/-- Whether the results of a statement are indented. -/
def indentsStatement (kind : Option NodeKind) : Bool :=
  let isFeature := match kind with
    | some (.feature _) => true
    | _ => false
  env.generator.config.autoIndent.applies scope.file.kind && isFeature

/-- The outcomes of statements behind the text `previous`, when `result` was accumulated so far. -/
def bodyOutcomes (current : Datum) :
    List NodeId → Option String → Datum → Eval (List Outcome)
  | [], _, _ => pure []
  | id :: rest, previous, result => do
    let kind := scope.kind? id
    if rest.isEmpty && result.value.isObjectLike && isBlankText kind then pure []
    else
      let part ← locatedOutcome env recur observe scope id current
      let part := if indentsStatement env scope kind then
          .value (indentResult previous (part.result env.model))
        else part
      let text := match kind with
        | some (.text content) => some content
        | _ => none
      let parts ← bodyOutcomes current rest text (result.append env.model (part.result env.model))
      pure (part :: parts)

/-- The outcome of a body; `fuel` bounds the depth as it does for `run`. -/
def bodyOutcome : Nat → Observe
  | 0, _, _, _ => throw .unfinished
  | fuel + 1, scope, body, current => do
    let parts ← bodyOutcomes env (run env fuel) (bodyOutcome fuel) scope current
      (scope.file.tree.children body) none (nothing current)
    pure (.block current parts)

/-! ## Scripts -/

/-- The outcome of the body of a script, in a frame of its own. -/
def enteredOutcome (ref : Script.Ref) (current : Datum) (args : List Datum) : Eval Outcome :=
  let run := Eval.withFrame { node := current, args, script := some ref }
    (observe scope scope.script.body current)
  match current.value.object? with
  | some object => Eval.whileActive (ref, object) run
  | none => run

/-- The outcome of a script without a post expression. -/
def scriptOutcome (ref : Script.Ref) (current : Datum) (args : List Datum) : Eval Outcome := do
  match env.generator.script? ref with
  | none => Eval.failWith (.unresolvedCall s!"script {ref.index}")
  | some (file, declaration) =>
    let scope : Scope := ⟨ref.file, file, declaration⟩
    Eval.poll env
    let active := (← get).active
    match current.value.object?.filter fun object => active.contains (ref, object) with
    | some object => Eval.fail (recursion env scope object)
    | none =>
      let result ← (enteredOutcome observe scope ref current args).attempt
      let isEmpty := match result with
        | .ok outcome => (outcome.result env.model).value.size == 0
        | .error _ => true
      modify fun s => { s with outcomes := recordOutcome ref isEmpty s.outcomes }
      Eval.ofExcept result

/-- The outcome of the script of a name for an object. -/
def renderOutcome (name : String) (object : ObjectId) : Eval Outcome := do
  match ← resolveFor env object name with
  | none => Eval.failWith (.unresolvedTemplate (env.typeOf object) name)
  | some ref =>
    let current := Datum.root object
    scriptOutcome env (bodyOutcome env (depthLimit env (itemCount [current]) - 1)) ref current []

/-! ## Forgetting the parts -/

section Forget

variable {env recur observe scope}

namespace Eval

variable {α β : Type} (f : α → β) (x : Eval α)

theorem map_apply (s : State) : (f <$> x) s = match x s with
    | (.ok value, s) => (.ok (f value), s)
    | (.error stop, s) => (.error stop, s) := by
  rw [map_eq_pure_bind, bind_apply]
  rcases x s with ⟨_ | _, _⟩ <;> rfl

theorem map_locating (locate : Failure → Failure) :
    f <$> x.locating locate = (f <$> x).locating locate := by
  funext s
  rw [map_apply, locating, locating, map_apply]
  rcases x s with ⟨(_ | _) | _, _⟩ <;> rfl

theorem map_withFrame (frame : Frame) : f <$> withFrame frame x = withFrame frame (f <$> x) := by
  funext s
  rw [map_apply, withFrame, withFrame, map_apply]
  rcases x { s with frames := frame :: s.frames } with ⟨_ | _, _⟩ <;> rfl

theorem map_whileActive (pair : Script.Ref × ObjectId) :
    f <$> whileActive pair x = whileActive pair (f <$> x) := by
  funext s
  rw [map_apply, whileActive, whileActive, map_apply]
  rcases x { s with active := pair :: s.active } with ⟨_ | _, _⟩ <;> rfl

theorem attempt_map : (f <$> x).attempt = (Except.map f) <$> x.attempt := by
  funext s
  rw [map_apply, attempt, attempt, map_apply]
  rcases x s with ⟨(_ | _) | _, _⟩ <;> rfl

theorem map_ofExcept (result : Except Failure α) :
    f <$> ofExcept result = ofExcept (result.map f) := by
  cases result <;> rfl

end Eval

variable (hobserve : ∀ scope body current,
  recur (.sequence scope body current) = Outcome.result env.model <$> observe scope body current)

include hobserve

theorem loop_eq_map (body : NodeId) (index : Nat) (items : List Item) (result : Datum) :
    loop env recur scope body index items result =
      (fun passes => (Outcome.results env.model passes).foldl (Datum.append env.model) result) <$>
        loopOutcomes observe scope body index items := by
  induction items generalizing index result with
  | nil => simp [loop, loopOutcomes, Outcome.results]
  | cons item rest ih =>
    simp [loop, loopOutcomes, hobserve, ← Eval.map_withFrame, ih, Outcome.results]

theorem branches_eq_map (current : Datum) (pairs : List (NodeId × NodeId))
    (otherwise : Option NodeId) :
    branches recur scope current pairs otherwise =
      Outcome.result env.model <$> branchOutcome recur observe scope current pairs otherwise := by
  induction pairs with
  | nil => cases otherwise <;> simp [branches, branchOutcome, hobserve, Outcome.result]
  | cons pair rest ih =>
    simp only [branches, branchOutcome, map_bind]
    refine bind_congr fun holds => ?_
    split
    · exact hobserve _ _ _
    · exact ih

theorem statement_eq_map (id : NodeId) (current : Datum) :
    statement env recur scope id current =
      Outcome.result env.model <$> statementOutcome env recur observe scope id current := by
  unfold statementOutcome
  split
  · next hkind =>
    simp [statement, hkind, loop_eq_map hobserve, Outcome.result]
  · next hkind => simp only [statement, hkind, branches_eq_map hobserve]
  · next hkind => simp only [statement, hkind, hobserve]
  · simp [Outcome.result]

theorem locatedStatement_eq_map (id : NodeId) (current : Datum) :
    locatedStatement env recur scope id current =
      Outcome.result env.model <$> locatedOutcome env recur observe scope id current := by
  rw [locatedStatement, locatedOutcome, Eval.map_locating, statement_eq_map hobserve]

theorem statements_eq_map (hmode : env.mode = .generation) (current : Datum) (ids : List NodeId)
    (previous : Option String) (result : Datum) :
    statements env recur scope current ids previous result =
      (fun parts => (Outcome.results env.model parts).foldl (Datum.append env.model) result) <$>
        bodyOutcomes env recur observe scope current ids previous result := by
  induction ids generalizing previous result with
  | nil => simp [statements, bodyOutcomes, Outcome.results]
  | cons id rest ih =>
    unfold statements bodyOutcomes
    extract_lets kind isFeature indents text ownText
    split
    · simp [Outcome.results]
    · have hstatement : bodyStatement env recur scope id current =
          Outcome.result env.model <$> locatedOutcome env recur observe scope id current := by
        rw [bodyStatement, hmode]
        exact locatedStatement_eq_map hobserve id current
      have hpart (part : Outcome) : (if indentsStatement env scope kind then
          Outcome.value (indentResult previous (part.result env.model)) else part).result env.model =
          if indents then indentResult previous (part.result env.model)
            else part.result env.model := by
        change (if indents = true then _ else _ : Outcome).result env.model = _
        split <;> rfl
      simp only [hstatement, bind_map_left, map_bind, map_pure]
      refine bind_congr fun part => ?_
      rw [← hpart, ih, map_eq_pure_bind]
      rfl

omit hobserve

/-- A body yields the value of its outcome. -/
theorem run_sequence_eq_map (hmode : env.mode = .generation) (fuel : Nat) (scope : Scope)
    (body : NodeId) (current : Datum) :
    run env fuel (.sequence scope body current) =
      Outcome.result env.model <$> bodyOutcome env fuel scope body current := by
  induction fuel generalizing scope body current with
  | zero => rfl
  | succ fuel ih =>
    change statements env (run env fuel) scope current (scope.file.tree.children body) none
      (nothing current) = _
    rw [statements_eq_map ih hmode]
    simp [bodyOutcome, Outcome.result]

theorem body_eq_map (hmode : env.mode = .generation) (fuel : Nat) (scope : Scope)
    (ref : Script.Ref) (current : Datum) (args : List Datum) :
    body (run env fuel) scope ref current args =
      Outcome.result env.model <$> enteredOutcome (bodyOutcome env fuel) scope ref current args := by
  unfold body enteredOutcome
  rw [run_sequence_eq_map hmode, ← Eval.map_withFrame]
  cases current.value.object? with
  | some object => exact (Eval.map_whileActive ..).symm
  | none => rfl

/-- A script without a post expression yields the value of its outcome. -/
theorem script_eq_map (hmode : env.mode = .generation) (fuel : Nat) (ref : Script.Ref)
    (hpost : ∀ file declaration, env.generator.script? ref = some (file, declaration) →
      declaration.post = none) (current : Datum) (args : List Datum) :
    script env (run env fuel) ref current args =
      Outcome.result env.model <$> scriptOutcome env (bodyOutcome env fuel) ref current args := by
  unfold script scriptOutcome
  cases hscript : env.generator.script? ref with
  | none => rfl
  | some pair =>
    obtain ⟨file, declaration⟩ := pair
    have hpost := hpost file declaration hscript
    simp only [map_bind]
    refine bind_congr fun _ => bind_congr fun s => ?_
    cases current.value.object?.filter fun object => s.active.contains (ref, object) with
    | some object => rfl
    | none =>
      simp only [hpost, body_eq_map hmode, Eval.attempt_map, Eval.map_ofExcept, bind_map_left,
        map_bind, pure_bind]
      refine bind_congr fun outcome => ?_
      cases outcome <;> rfl

theorem evaluateScript_eq (ref : Script.Ref) (current : Datum) (args : List Datum) :
    evaluateScript env ref current args =
      script env (run env (depthLimit env (itemCount (current :: args)) - 1)) ref current args := by
  have hdepth : depthLimit env (itemCount (current :: args)) =
      depthLimit env (itemCount (current :: args)) - 1 + 1 := by
    unfold depthLimit postDepth
    omega
  rw [evaluateScript, hdepth, run, step, Nat.add_sub_cancel]

/-- Rendering a script without a post expression yields the value of its outcome. -/
theorem render_apply_eq (hmode : env.mode = .generation) (name : String) (object : ObjectId)
    (s : State) (hpost : ∀ ref file declaration, (resolveFor env object name s).1 = .ok (some ref) →
      env.generator.script? ref = some (file, declaration) → declaration.post = none) :
    render env name object s = (Outcome.result env.model <$> renderOutcome env name object) s := by
  unfold render renderOutcome
  rw [map_bind, Eval.bind_apply, Eval.bind_apply]
  rcases hfound : resolveFor env object name s with ⟨_ | (_ | ref), s'⟩
  · rfl
  · rfl
  · rw [hfound] at hpost
    have hscript := script_eq_map hmode (depthLimit env (itemCount [Datum.root object]) - 1) ref
      (fun file declaration => hpost ref file declaration rfl) (Datum.root object) []
    dsimp only
    rw [evaluateScript_eq, hscript]

end Forget

end ModelText.Evaluation
