import ModelText.Proofs.Evaluation.Alike
import ModelText.Proofs.Evaluation.Calls
import ModelText.Proofs.Generator.History

/-!
# The discipline of the stack

Whenever a task begins or ends, the active scripts are those that were entered in the frames, each once.
Every evaluation leaves the frames and the active scripts as it found them, whether it fails or not. So
nothing of the calls before it shows in the answer of a call, unless results are cached or evaluations are
cancelled.
-/

namespace ModelText.Evaluation

/-- The active scripts of a state are those that were entered in its frames, each once. -/
def State.Disciplined (s : State) : Prop := Matching s.frames s.active

instance : DecidablePred State.Disciplined := fun s =>
  inferInstanceAs (Decidable (s.active = s.frames.filterMap Frame.entry? ∧ s.active.Nodup))

/-- Carries out a step, and something else instead of it or behind it where it begins or ends in a state
that is not disciplined. -/
def watch (alarm x : Eval Datum) : Eval Datum := fun s =>
  if s.Disciplined then
    let outcome := x s
    if outcome.2.Disciplined then outcome else alarm outcome.2
  else alarm s

/-- Evaluates a task and watches the states in which it and the tasks inside it, at every depth, begin
and end. -/
def watchedRun (env : Env) (alarm : Eval Datum) : Nat → Task → Eval Datum
  | 0, _ => throw .unfinished
  | fuel + 1, task => watch alarm (step env (watchedRun env alarm fuel) task)

/-- The state after calls, one after the other. -/
def stateAfter (env : Env) (s : State) (calls : List Call) : State :=
  calls.foldl (fun s call => (call.perform env s).2) s

/-- Nothing cancels an evaluation: no outside flag is set, and no service asks for it where evaluations
listen to that. -/
structure Uncancelled (env : Env) : Prop where
  interrupts : ∀ poll, env.interrupts poll = false
  services : env.shared = true → ∀ file name arity service,
    env.generator.findService? file name arity = some service → service.cancels = false

variable {env : Env} {E : State → State → Prop} {frames : List Frame}
  {active : List (Script.Ref × ObjectId)}

/-! ## Runs and calls -/

theorem alike_run (hE : Indistinct env E) (fuel : Nat) (hmatching : Matching frames active)
    (task : Task) : Alike (InContext E frames active) (run env fuel task) (run env fuel task) := by
  induction fuel generalizing frames active task with
  | zero => exact Alike.throw _
  | succ fuel ih => exact alike_step hE (fun _ _ h task => ih h task) hmatching task

theorem alike_watch {x y : Eval Datum} (hmatching : Matching frames active)
    (h : Alike (InContext E frames active) x y) (alarm : Eval Datum) :
    Alike (InContext E frames active) (watch alarm x) y := by
  intro s s' hs
  have hdisciplined {t : State} (ht : t.StandsAt frames active) : t.Disciplined := by
    rw [State.Disciplined, ht.1, ht.2]
    exact hmatching
  have houtcome := h s s' hs
  rw [watch, if_pos (hdisciplined hs.left)]
  dsimp only
  rw [if_pos (hdisciplined houtcome.2.left)]
  exact houtcome

theorem alike_watchedRun (hE : Indistinct env E) (alarm : Eval Datum) (fuel : Nat)
    (hmatching : Matching frames active) (task : Task) :
    Alike (InContext E frames active) (watchedRun env alarm fuel task) (run env fuel task) := by
  induction fuel generalizing frames active task with
  | zero => exact Alike.throw _
  | succ fuel ih =>
    exact alike_watch hmatching (alike_step hE (fun _ _ h task => ih h task) hmatching task) alarm

theorem Alike.map {α β : Type} {R : State → State → Prop} {x y : Eval α} (h : Alike R x y)
    (f : α → β) : Alike R (f <$> x) (f <$> y) := by
  rw [map_eq_pure_bind, map_eq_pure_bind]
  exact Alike.bind h fun value => Alike.pure _

theorem alike_perform (hE : Indistinct env E) (hmatching : Matching frames active) (call : Call) :
    Alike (InContext E frames active) (call.perform env) (call.perform env) := by
  have hrun (fuel : Nat) (task : Task) := alike_run hE fuel hmatching task
  cases call with
  | script ref current args => exact (hrun _ _).map _
  | render name object =>
    refine Alike.map (Alike.bind (alike_resolveFor hE object name) fun found => ?_) _
    split
    · exact Alike.failWith _
    · exact hrun _ _
  | path ref object =>
    refine Alike.map ?_ _
    unfold evaluatePath
    split
    · exact Alike.pure _
    · split
      · exact Alike.pure _
      · exact Alike.bind (hrun _ _) fun node => Alike.pure _

/-! ## What states are told apart by -/

/-- Two states that differ in their frames and their active scripts at most. -/
def SameRest (s s' : State) : Prop :=
  { s with frames := [], active := [] } = { s' with frames := [], active := [] }

theorem eq_of_inContext {s s' : State} (h : InContext SameRest frames active s s') : s = s' := by
  obtain ⟨⟨hframes, hactive⟩, ⟨hframes', hactive'⟩, hrest⟩ := h
  simp only [SameRest, State.mk.injEq, true_and] at hrest
  cases s
  cases s'
  simp_all

theorem inContext_refl (s : State) : InContext SameRest s.frames s.active s s :=
  ⟨⟨rfl, rfl⟩, ⟨rfl, rfl⟩, rfl⟩

theorem indistinct_sameRest (env : Env) : Indistinct env SameRest := by
  constructor <;> intro s s' h <;> simp only [SameRest, State.mk.injEq, true_and] at h ⊢ <;>
    obtain ⟨hcache, houtcomes, hmemo, hcancelled, hpolls⟩ := h <;>
    simp [hcache, houtcomes, hmemo, hcancelled, hpolls]

/-- A state from which evaluations find the scripts that they find with the given memo, and in which
nothing asked for cancellation where evaluations listen to that. -/
structure LikeFresh (env : Env) (memo : Script.Memo) (s : State) : Prop where
  memo : env.generator.registry.Extends env.model env.generator.config.rootType memo s.memo
  cancelled : env.shared = true → s.cancelled = false

/-- Nothing asked for cancellation when an evaluation polls. -/
theorem LikeFresh.listens {memo : Script.Memo} {s : State} (hs : LikeFresh env memo s)
    (hcancel : Uncancelled env) : (env.interrupts s.polls || (env.shared && s.cancelled)) = false := by
  rw [hcancel.interrupts, Bool.false_or]
  cases hshared : env.shared with
  | false => rfl
  | true => rw [hs.cancelled hshared, Bool.and_false]

theorem indistinct_likeFresh (memo : Script.Memo) (hcaches : env.generator.config.cacheResults = false)
    (hcancel : Uncancelled env) :
    Indistinct env fun s s' => LikeFresh env memo s ∧ LikeFresh env memo s' where
  place h _ _ _ _ := ⟨⟨h.1.memo, h.1.cancelled⟩, ⟨h.2.memo, h.2.cancelled⟩⟩
  resolve h typeName name := by
    refine ⟨?_, ⟨h.1.memo.resolve typeName name, h.1.cancelled⟩,
      ⟨h.2.memo.resolve typeName name, h.2.cancelled⟩⟩
    exact (h.1.memo.resolve_eq typeName name).trans (h.2.memo.resolve_eq typeName name).symm
  poll h := by
    refine ⟨?_, ⟨h.1.memo, h.1.cancelled⟩, ⟨h.2.memo, h.2.cancelled⟩⟩
    rw [h.1.listens hcancel, h.2.listens hcancel]
  record h _ _ := ⟨⟨h.1.memo, h.1.cancelled⟩, ⟨h.2.memo, h.2.cancelled⟩⟩
  cancel h file name arity service hservice hcancels := by
    have hdeaf : env.shared ≠ true := by
      intro hshared
      rw [hcancel.services hshared file name arity service hservice] at hcancels
      cases hcancels
    exact ⟨⟨h.1.memo, fun hshared => absurd hshared hdeaf⟩, ⟨h.2.memo, fun hshared => absurd hshared hdeaf⟩⟩
  cache _ htrue := by
    rw [hcaches] at htrue
    cases htrue
  store _ htrue := by
    rw [hcaches] at htrue
    cases htrue

/-! ## Evaluators -/

theorem standsAt_stateAfter {s : State} (hs : s.StandsAt frames active) (hmatching : Matching frames active)
    (calls : List Call) : (stateAfter env s calls).StandsAt frames active := by
  induction calls generalizing s with
  | nil => exact hs
  | cons call rest ih =>
    have hcontext : InContext SameRest frames active s s := ⟨hs, hs, rfl⟩
    exact ih (alike_perform (indistinct_sameRest env) hmatching call s s hcontext).2.left

theorem likeFresh_stateAfter {memo : Script.Memo} (hcaches : env.generator.config.cacheResults = false)
    (hcancel : Uncancelled env) {s : State} (hdisciplined : s.Disciplined) (hs : LikeFresh env memo s)
    (calls : List Call) : LikeFresh env memo (stateAfter env s calls) := by
  induction calls generalizing s with
  | nil => exact hs
  | cons call rest ih =>
    obtain ⟨-, hafter⟩ := alike_perform (indistinct_likeFresh memo hcaches hcancel) hdisciplined call s s
      ⟨⟨rfl, rfl⟩, ⟨rfl, rfl⟩, hs, hs⟩
    refine ih ?_ hafter.related.1
    rw [State.Disciplined, hafter.left.1, hafter.left.2]
    exact hdisciplined

/-- On an evaluator that carried out any calls, no watch over the states in which tasks begin and end sees
one that is not disciplined. Every task, and so every evaluation of a script, ends with the frames and the
active scripts it began with. Without caching and cancellation, an answer is the one of a fresh evaluator. -/
theorem disciplined_throughout (env : Env) (memo : Script.Memo) (calls : List Call) :
    let fresh : State := { memo }
    let used := stateAfter env fresh calls
    (used.frames = [] ∧ used.active = []) ∧
      (∀ s : State, s.Disciplined → ∀ (alarm : Eval Datum) (fuel : Nat) (task : Task),
        watchedRun env alarm fuel task s = run env fuel task s) ∧
      (∀ s : State, s.Disciplined → ∀ (fuel : Nat) (task : Task),
        (run env fuel task s).2.frames = s.frames ∧ (run env fuel task s).2.active = s.active) ∧
      (env.generator.config.cacheResults = false → Uncancelled env → ∀ call : Call,
        (call.perform env used).1 = (call.perform env fresh).1) := by
  intro fresh used
  have hfresh : fresh.Disciplined := ⟨rfl, List.nodup_nil⟩
  have hused : used.StandsAt [] [] := standsAt_stateAfter ⟨rfl, rfl⟩ hfresh calls
  refine ⟨hused, fun s hs alarm fuel task => ?_, fun s hs fuel task => ?_, fun hcaches hcancel call => ?_⟩
  · obtain ⟨hresult, hstate⟩ := alike_watchedRun (indistinct_sameRest env) alarm fuel hs task s s
      (inContext_refl s)
    exact Prod.ext hresult (eq_of_inContext hstate)
  · exact (alike_run (indistinct_sameRest env) fuel hs task s s (inContext_refl s)).2.left
  · have hlike : LikeFresh env memo fresh := ⟨.refl memo, fun _ => rfl⟩
    have hcontext : InContext (fun s s' => LikeFresh env memo s ∧ LikeFresh env memo s') [] [] used fresh :=
      ⟨hused, ⟨rfl, rfl⟩, likeFresh_stateAfter hcaches hcancel hfresh hlike calls, hlike⟩
    exact (alike_perform (indistinct_likeFresh memo hcaches hcancel) hfresh call _ _ hcontext).1

/-- A script that called itself leaves nothing behind for the script that is rendered next. -/
theorem disciplined_throughout_recursion :
    let generator := ({} : Generator).after [.addTemplate "again" "<%again%>", .addTemplate "t" "a<%name%>"]
    let model : Model := { objects := #[{ typeName := "C", features := [("name", .text "x")] }] }
    let env : Env := { generator, model := { model } }
    let fresh : State := { memo := [] }
    let used := stateAfter env fresh [.render "again" 0]
    (((Call.render "again" 0).perform env fresh).1 matches
        .error (.failed { cause := .recursiveCall _ _, .. })) = true ∧ fresh.Disciplined ∧
      env.generator.config.cacheResults = false ∧ Uncancelled env ∧ used.frames = [] ∧ used.active = [] ∧
      (∀ alarm fuel task, watchedRun env alarm fuel task fresh = run env fuel task fresh) ∧
      ((Call.render "t" 0).perform env used).1 = ((Call.render "t" 0).perform env fresh).1 := by
  intro generator model env fresh used
  have hfails : (((Call.render "again" 0).perform env fresh).1 matches
      .error (.failed { cause := .recursiveCall _ _, .. })) = true := by decide +kernel
  have hfresh : fresh.Disciplined := ⟨rfl, List.nodup_nil⟩
  have hcaches : env.generator.config.cacheResults = false := by decide +kernel
  have hcancel : Uncancelled env := ⟨fun _ => rfl, fun hshared => nomatch hshared⟩
  obtain ⟨⟨hframes, hactive⟩, hwatched, -, hanswers⟩ := disciplined_throughout env [] [.render "again" 0]
  exact ⟨hfails, hfresh, hcaches, hcancel, hframes, hactive, hwatched fresh hfresh,
    hanswers hcaches hcancel (.render "t" 0)⟩

end ModelText.Evaluation
