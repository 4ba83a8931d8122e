import ModelText.Proofs.Evaluation.Alike
import ModelText.Proofs.Evaluation.Congruence
import ModelText.Proofs.Generator.History

/-!
# Previews

A preview goes on behind a statement that fails. An evaluation that succeeds without that has the same
result in a preview. An evaluation of a script in a preview fails only when it is cancelled, when the
script is active for the object already or when its own post expression fails: nothing stands around that
expression.
-/

namespace ModelText.Evaluation

/-- When the first step succeeds, the second has the same result and ends in the same state. -/
def Reproduces ⦃α : Type⦄ (x y : Eval α) : Prop := ∀ s value, (x s).1 = .ok value → y s = x s

namespace Reproduces

variable {α β : Type}

theorem refl (x : Eval α) : Reproduces x x := fun _ _ _ => rfl

theorem bind {x y : Eval α} {f g : α → Eval β} (hxy : Reproduces x y)
    (hfg : ∀ value, Reproduces (f value) (g value)) : Reproduces (x >>= f) (y >>= g) := by
  intro s value hok
  rw [Eval.bind_apply] at hok
  rw [Eval.bind_apply, Eval.bind_apply]
  cases hrun : x s with
  | mk result t =>
    rw [hrun] at hok
    cases result with
    | error stop => cases hok
    | ok a =>
      rw [hxy s a (congrArg Prod.fst hrun), hrun]
      exact hfg a t value hok

theorem locating {x y : Eval α} (hxy : Reproduces x y) (locate : Failure → Failure) :
    Reproduces (x.locating locate) (y.locating locate) := by
  intro s value hok
  unfold Eval.locating at hok ⊢
  rcases hrun : x s with ⟨(failure | _) | a, t⟩
  · rw [hrun] at hok
    cases hok
  · rw [hrun] at hok
    cases hok
  · rw [hxy s a (congrArg Prod.fst hrun), hrun]

/-- Nothing is caught in the first setting, and a preview has nothing to catch. -/
theorem catching {env : Env} {x y : Eval Datum} (hxy : Reproduces x y) (scope : Scope)
    (id : Template.NodeId) (current : Datum) :
    Reproduces (Eval.catching { env with mode := .generation } scope id current x)
      (Eval.catching { env with mode := .preview } scope id current y) := by
  intro s value hok
  have hrun : (x s).1 = .ok value := hok
  unfold Eval.catching
  dsimp only
  rw [hxy s value hrun]
  split
  · next failure t heq =>
    rw [heq] at hrun
    cases hrun
  · rfl

theorem recording {x y : Eval Datum} (hxy : Reproduces x y) (ref : Script.Ref) :
    Reproduces (Eval.recording ref x) (Eval.recording ref y) := by
  intro s value hok
  unfold Eval.recording at hok ⊢
  rcases hrun : x s with ⟨(failure | _) | d, t⟩
  · rw [hrun] at hok
    cases hok
  · rw [hrun] at hok
    cases hok
  · rw [hxy s d (congrArg Prod.fst hrun), hrun]

theorem withFrame {x y : Eval α} (hxy : Reproduces x y) (frame : Frame) :
    Reproduces (Eval.withFrame frame x) (Eval.withFrame frame y) := by
  intro s value hok
  unfold Eval.withFrame
  rw [hxy _ value hok]

theorem whileActive {x y : Eval α} (hxy : Reproduces x y) (pair : Script.Ref × ObjectId) :
    Reproduces (Eval.whileActive pair x) (Eval.whileActive pair y) := by
  intro s value hok
  unfold Eval.whileActive
  rw [hxy _ value hok]

end Reproduces

theorem congruence_reproduces (env : Env) :
    Congruence { env with mode := .generation } { env with mode := .preview } (fun _ => True) Reproduces where
  agree := ⟨rfl, rfl, rfl, rfl, rfl⟩
  pure value := .refl _
  throw stop := .refl _
  bind := .bind
  frames hfg s value hok := hfg _ _ _ hok
  active hfg s value hok := hfg _ _ _ hok
  resolve object name hfg := .bind (.refl _) fun found => hfg found fun _ _ => trivial
  poll := .refl _
  cancel := .refl _
  locating locate _ hxy := hxy.locating locate
  catching scope id current hxy := hxy.catching scope id current
  recording ref hxy := hxy.recording ref
  withFrame frame hxy := hxy.withFrame frame
  whileActive pair hxy := hxy.whileActive pair
  callScript ref source object args hscript := by
    unfold callScript
    split
    · refine .bind (.refl _) fun s => ?_
      split
      · exact .refl _
      · exact .bind hscript fun result => .refl _
    · exact hscript

/-- Whatever a host asks for: a preview answers what a generation answers, and ends in the same state,
unless the generation fails. -/
theorem preview_eq_generation (env : Env) (call : Call) (s s' : State) (answer : Answer)
    (h : call.perform { env with mode := .generation } s = (.ok answer, s')) :
    call.perform { env with mode := .preview } s = (.ok answer, s') :=
  ((congruence_reproduces env).perform call s answer (congrArg Prod.fst h)).trans h

/-- The text that an evaluator answers. -/
def Answer.text? : Answer → Option String
  | .datum d => d.value.text?.map (·.value)
  | .path location => location

/-- A loop over objects, with a script for each of them. -/
theorem preview_eq_generation_kids :
    let generator := ({} : Generator).after
      [.addTemplate "main" "<%for (kids)\x7b%>[<%label%>]<%\x7d%>", .addTemplate "label" "<%i()%>:<%name%>"]
    let kid (name : String) : Object := { typeName := "C", features := [("name", .text name)] }
    let parent : Object := { typeName := "C", features := [("kids", .list [.object 1, .object 2])] }
    let env : Env := { generator, model := { model := { objects := #[parent, kid "x", kid "y"] } } }
    ∃ answer s', (Call.render "main" 0).perform { env with mode := .generation } {} = (.ok answer, s') ∧
      answer.text? = some "[0:x][1:y]" ∧
      (Call.render "main" 0).perform { env with mode := .preview } {} = (.ok answer, s') := by
  intro generator kid parent env
  have htext : ((Call.render "main" 0).perform { env with mode := .generation } {}).1.toOption.bind
      Answer.text? = some "[0:x][1:y]" := by decide +kernel
  rcases hrun : (Call.render "main" 0).perform { env with mode := .generation } {} with ⟨stop | answer, s'⟩
  · rw [hrun] at htext
    cases htext
  · rw [hrun] at htext
    exact ⟨answer, s', rfl, htext, preview_eq_generation env (.render "main" 0) {} s' answer hrun⟩

/-! ## Failures of a preview -/

/-- A failure of the step is a cancellation. -/
def Survives {α : Type} (x : Eval α) : Prop :=
  ∀ s failure, (x s).1 = .error (.failed failure) → failure.isCancellation = true

namespace Survives

variable {α β : Type}

theorem pure (value : α) : Survives (Pure.pure value) := by
  intro s failure hfails
  cases hfails

theorem bind {x : Eval α} {f : α → Eval β} (hx : Survives x) (hf : ∀ value, Survives (f value)) :
    Survives (x >>= f) := by
  intro s failure hfails
  rw [Eval.bind_apply] at hfails
  cases hrun : x s with
  | mk result t =>
    rw [hrun] at hfails
    cases result with
    | ok value => exact hf value t failure hfails
    | error stop =>
      refine hx s failure ?_
      rw [hrun]
      cases hfails
      rfl

theorem withFrame {x : Eval α} (hx : Survives x) (frame : Frame) : Survives (Eval.withFrame frame x) :=
  fun _ failure hfails => hx _ failure hfails

theorem whileActive {x : Eval α} (hx : Survives x) (pair : Script.Ref × ObjectId) :
    Survives (Eval.whileActive pair x) :=
  fun _ failure hfails => hx _ failure hfails

theorem poll (env : Env) : Survives (Eval.poll env) := by
  intro s failure hfails
  rw [poll_apply] at hfails
  dsimp only at hfails
  split at hfails
  · cases hfails
    rfl
  · cases hfails

end Survives

section Previews

variable {env : Env} (hmode : env.mode = .preview)

include hmode

theorem survives_catching (scope : Scope) (id : Template.NodeId) (current : Datum) (x : Eval Datum) :
    Survives (Eval.catching env scope id current x) := by
  intro s failure hfails
  unfold Eval.catching at hfails
  rw [hmode] at hfails
  rcases hrun : x s with ⟨(other | _) | d, t⟩
  · rw [hrun] at hfails
    dsimp only at hfails
    split at hfails
    · next hcancelled =>
      cases hfails
      exact hcancelled
    · cases hfails
  · rw [hrun] at hfails
    cases hfails
  · rw [hrun] at hfails
    cases hfails

/-- Whatever the tasks inside do, the statements of a body fail only when they are cancelled. -/
theorem survives_statements (recur : Recur) (scope : Scope) (current : Datum) (ids : List Template.NodeId)
    (previous : Option String) (result : Datum) :
    Survives (statements env recur scope current ids previous result) := by
  induction ids generalizing previous result with
  | nil => exact .pure _
  | cons id rest ih =>
    unfold statements
    extract_lets kind
    split
    · exact .pure _
    · rw [bodyStatement_eq]
      exact (survives_catching hmode scope id current _).bind fun node => ih _ _

theorem survives_body (fuel : Nat) (scope : Scope) (ref : Script.Ref) (current : Datum) (args : List Datum) :
    Survives (body (run env fuel) scope ref current args) := by
  have hsequence : Survives (run env fuel (.sequence scope scope.script.body current)) := by
    cases fuel with
    | zero =>
      intro s failure hfails
      cases hfails
    | succ fuel => exact survives_statements hmode _ _ _ _ _ _
  unfold body
  split
  · exact (hsequence.withFrame _).whileActive _
  · exact hsequence.withFrame _

end Previews

/-- Polls, and evaluates the body of a script in a frame of its own. -/
def enteredBody (env : Env) (fuel : Nat) (scope : Scope) (ref : Script.Ref) (current : Datum)
    (args : List Datum) : Eval Datum := do
  Eval.poll env
  body (run env fuel) scope ref current args

/-- A script that is not active for its object is entered when it is polled for. -/
theorem run_script_fst {env : Env} {ref : Script.Ref} {file : Script.File} {declaration : Script.Declaration}
    (hscript : env.generator.script? ref = some (file, declaration)) (fuel : Nat) {current : Datum}
    {s : State} (hinactive : ∀ object, current.value.object? = some object → (ref, object) ∉ s.active)
    (args : List Datum) :
    let scope : Scope := ⟨ref.file, file, declaration⟩
    (run env (fuel + 1) (.script ref current args) s).1 =
      ((enteredBody env fuel scope ref current args >>= fun node =>
        match declaration.post with
        | some post => run env fuel (.expression scope post node current)
        | none => pure node) s).1 := by
  intro scope
  have hfilter : (current.value.object?.filter fun object => s.active.contains (ref, object)) = none := by
    refine Option.filter_eq_none_iff.mpr fun object hobject hmem => ?_
    exact hinactive object hobject (List.contains_iff_mem.mp hmem)
  change (script env (run env fuel) ref current args s).1 = _
  rw [script_eq, hscript]
  dsimp only
  rw [enteredBody, bind_assoc, Eval.bind_apply, Eval.bind_apply, poll_apply]
  split
  · next _ t heq =>
    obtain rfl : { s with polls := s.polls + 1 } = t := congrArg Prod.snd heq
    rw [Eval.bind_apply]
    change (enteredScript env (run env fuel) scope ref current args s.active _).1 = _
    unfold enteredScript
    rw [hfilter]
    exact recording_fst _ _ _
  · rfl

/-- What is followed by an optional step fails itself, or the step does. -/
theorem fails_post_iff (x : Eval Datum) (post? : Option Template.NodeId)
    (f : Template.NodeId → Datum → Eval Datum) (s : State) (failure : Failure) :
    ((x >>= fun node =>
        match post? with
        | some post => f post node
        | none => pure node) s).1 = .error (.failed failure) ↔
      (x s).1 = .error (.failed failure) ∨
        ∃ post node t, post? = some post ∧ x s = (.ok node, t) ∧
          (f post node t).1 = .error (.failed failure) := by
  rw [Eval.bind_apply]
  rcases x s with ⟨stop | node, t⟩
  · constructor
    · exact fun hfails => .inl hfails
    · rintro (hfails | ⟨_, _, _, _, hok, _⟩)
      · exact hfails
      · cases hok
  · cases post? with
    | none =>
      constructor
      · intro hfails
        cases hfails
      · rintro (hfails | ⟨_, _, _, hpost, -⟩)
        · cases hfails
        · cases hpost
    | some post =>
      constructor
      · exact fun hfails => .inr ⟨post, node, t, rfl, rfl, hfails⟩
      · rintro (hfails | ⟨_, _, _, hpost, hok, hfails⟩)
        · cases hfails
        · cases hpost
          cases hok
          exact hfails

/-- With any fuel, a script that is not active for its object fails by its post expression or is cancelled. -/
theorem run_script_fails_iff {env : Env} (hmode : env.mode = .preview) {ref : Script.Ref} {file : Script.File}
    {declaration : Script.Declaration} (hscript : env.generator.script? ref = some (file, declaration))
    (fuel : Nat) {current : Datum} {s : State}
    (hinactive : ∀ object, current.value.object? = some object → (ref, object) ∉ s.active) (args : List Datum)
    {failure : Failure} (hfailure : failure.isCancellation = false) :
    let scope : Scope := ⟨ref.file, file, declaration⟩
    (run env (fuel + 1) (.script ref current args) s).1 = .error (.failed failure) ↔
      ∃ post node t, declaration.post = some post ∧
        enteredBody env fuel scope ref current args s = (.ok node, t) ∧
        (run env fuel (.expression scope post node current) t).1 = .error (.failed failure) := by
  intro scope
  rw [run_script_fst hscript fuel hinactive, fails_post_iff]
  refine or_iff_right fun hfails => ?_
  -- A failure that leaves the body is a cancellation.
  have hbody : Survives (enteredBody env fuel scope ref current args) :=
    (Survives.poll env).bind fun _ => survives_body hmode fuel scope ref current args
  have hcancelled := hbody s failure hfails
  rw [hfailure] at hcancelled
  cases hcancelled

/-- In a preview, the evaluation of a script that is not active for its object fails for another reason than
a cancellation exactly when it has a post expression and that expression fails so, on the result of the
body. Every failure inside the body, in the scripts called there and in their post expressions leaves a
result. -/
theorem preview_fails_iff {env : Env} (hmode : env.mode = .preview) {ref : Script.Ref} {file : Script.File}
    {declaration : Script.Declaration} (hscript : env.generator.script? ref = some (file, declaration))
    {current : Datum} {s : State}
    (hinactive : ∀ object, current.value.object? = some object → (ref, object) ∉ s.active) (args : List Datum)
    {failure : Failure} (hfailure : failure.isCancellation = false) :
    let scope : Scope := ⟨ref.file, file, declaration⟩
    let fuel := depthLimit env (itemCount (current :: args)) - 1
    (evaluateScript env ref current args s).1 = .error (.failed failure) ↔
      ∃ post node t, declaration.post = some post ∧
        enteredBody env fuel scope ref current args s = (.ok node, t) ∧
        (run env fuel (.expression scope post node current) t).1 = .error (.failed failure) := by
  intro scope fuel
  have hfuel : depthLimit env (itemCount (current :: args)) = fuel + 1 := by
    have hpos : 0 < depthLimit env (itemCount (current :: args)) := Nat.add_pos_right _ (Nat.zero_lt_succ _)
    omega
  rw [evaluateScript, hfuel]
  exact run_script_fails_iff hmode hscript fuel hinactive args hfailure

/-- The failure that ended an evaluation. -/
def failure? {α : Type} : Except Stop α → Option Failure
  | .error (.failed failure) => some failure
  | _ => none

theorem eq_of_failure? {α : Type} {result : Except Stop α} {failure : Failure}
    (h : failure? result = some failure) : result = .error (.failed failure) := by
  unfold failure? at h
  split at h <;> cases h
  rfl

/-- A script whose post expression divides by zero, found for an object of its type. -/
def dividing : Env :=
  { generator := ({} : Generator).after
      [.addFile "a.mt" "<%script type=\"C\" name=\"t\" post=\"1 / 0\"%>\na<%name%>"]
    model := { model := { objects := #[{ typeName := "C", features := [("name", .text "x")] }] } }
    mode := .preview }

theorem dividing_fails :
    (resolveFor dividing 0 "t" {}).1.toOption = some (some ⟨0, 0⟩) ∧
      (dividing.generator.script? ⟨0, 0⟩).isSome = true ∧
      failure? (evaluateScript dividing ⟨0, 0⟩ (.root 0) [] {}).1 = some { cause := .divisionByZero } := by
  decide +kernel

theorem preview_fails_iff_dividing :
    ∃ file declaration post node t fuel, dividing.generator.script? ⟨0, 0⟩ = some (file, declaration) ∧
      declaration.post = some post ∧
      enteredBody dividing fuel ⟨0, file, declaration⟩ ⟨0, 0⟩ (.root 0) [] {} = (.ok node, t) ∧
      (run dividing fuel (.expression ⟨0, file, declaration⟩ post node (.root 0)) t).1 =
        .error (.failed { cause := .divisionByZero }) := by
  obtain ⟨-, hscript, hfails⟩ := dividing_fails
  obtain ⟨⟨file, declaration⟩, hscript⟩ := Option.isSome_iff_exists.mp hscript
  have hiff := @preview_fails_iff dividing rfl ⟨0, 0⟩ file declaration hscript (.root 0) {}
    (fun _ _ => List.not_mem_nil) [] { cause := .divisionByZero } rfl
  obtain ⟨post, node, t, hpost, hbody, hrun⟩ := hiff.mp (eq_of_failure? hfails)
  exact ⟨file, declaration, post, node, t, _, hscript, hpost, hbody, hrun⟩

/-- A preview of a script that is found for an object may fail for another reason than a cancellation. -/
theorem preview_not_total :
    (resolveFor dividing 0 "t" {}).1.toOption = some (some ⟨0, 0⟩) ∧
      failure? (evaluateScript dividing ⟨0, 0⟩ (.root 0) [] {}).1 = some { cause := .divisionByZero } ∧
      ({ cause := .divisionByZero } : Failure).isCancellation = false :=
  ⟨dividing_fails.1, dividing_fails.2.2, rfl⟩

end ModelText.Evaluation
