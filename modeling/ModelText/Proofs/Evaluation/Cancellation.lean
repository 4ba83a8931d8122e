import ModelText.Proofs.Evaluation.Alike
import ModelText.Proofs.Evaluation.Congruence
import ModelText.Proofs.Generator.History
import ModelText.Service.Simple

/-!
# Cancellation

Every script that is entered polls whether to go on. A poll that is told to stop ends the evaluation with a
cancellation: nothing that handles failures on the way out drops it, and no script is entered any more.

An outside flag tells its answers in the setting. What a flag that services raise tells the poll `n` shows
in the evaluation that is stopped by that poll: it is the same up to there.
-/

namespace ModelText.Evaluation

/-- The setting in which the poll `n` is told to stop, whatever the other flags say. -/
def Env.stoppedAt (env : Env) (n : Nat) : Env :=
  { env with interrupts := fun poll => env.interrupts poll || poll == n }

/-- What the poll `n` is told, by an outside flag or by the one that services raise, when the state behind
it is `s`. -/
def Env.answer (env : Env) (n : Nat) (s : State) : Bool := env.interrupts n || (env.shared && s.cancelled)

/-- What the poll `n` is told when a call is carried out from a state. -/
def answerAt (env : Env) (call : Call) (s : State) (n : Nat) : Bool :=
  env.answer n (call.perform (env.stoppedAt n) s).2

/-- A result that is a cancellation. -/
def IsCancelled {α : Type} (result : Except Stop α) : Prop :=
  ∃ failure, result = .error (.failed failure) ∧ failure.isCancellation = true

/-- The outcome of a step that begins after `first` polls, and the outcome of the same step stopped at the
poll `n`. They are the same unless the step comes by this poll. If it does, the second ends there, and so does
the first when the poll is told to stop. -/
structure Heeds (env : Env) (n first : Nat) {α : Type} (outcome stopped : Except Stop α × State) : Prop where
  le : first ≤ outcome.2.polls
  same : n < first ∨ outcome.2.polls ≤ n → stopped = outcome
  cancelled : first ≤ n → n < outcome.2.polls → IsCancelled stopped.1
  polls : first ≤ n → n < outcome.2.polls → stopped.2.polls = n + 1
  told : first ≤ n → n < outcome.2.polls → env.answer n stopped.2 = true → stopped = outcome

/-- A step, and the same step stopped at the poll `n`. -/
def HeedsPoll (env : Env) (n : Nat) ⦃α : Type⦄ (x y : Eval α) : Prop := ∀ s, Heeds env n s.polls (x s) (y s)

/-- What is done behind a step passes a cancellation on and does not poll. -/
def PassesCancellation {α β : Type} (leave : Except Stop α × State → Except Stop β × State) : Prop :=
  ∀ outcome, (leave outcome).2.polls = outcome.2.polls ∧ (leave outcome).2.cancelled = outcome.2.cancelled ∧
    (IsCancelled outcome.1 → IsCancelled (leave outcome).1)

namespace Heeds

variable {env : Env} {n first : Nat} {α β : Type} {outcome stopped : Except Stop α × State}

theorem of_silent (h : outcome.2.polls = first) : Heeds env n first outcome outcome where
  le := Nat.le_of_eq h.symm
  same _ := rfl
  cancelled _ _ := by omega
  polls _ _ := by omega
  told _ _ _ := rfl

/-- A step that succeeds was not told to stop. -/
theorem of_ok {value : α} {t : State} (h : Heeds env n first (.ok value, t) stopped) (hfirst : first ≤ n)
    (hlast : n < t.polls) : env.answer n stopped.2 = false := by
  obtain ⟨failure, hresult, -⟩ := h.cancelled hfirst hlast
  rw [← Bool.not_eq_true]
  intro htold
  rw [h.told hfirst hlast htold] at hresult
  cases hresult

theorem passed (h : Heeds env n first outcome stopped) (leave : Except Stop α × State → Except Stop β × State)
    (hleave : PassesCancellation leave) : Heeds env n first (leave outcome) (leave stopped) := by
  obtain ⟨hpolls, -, -⟩ := hleave outcome
  obtain ⟨hpolls', hflag, hpasses⟩ := hleave stopped
  constructor
  · rw [hpolls]
    exact h.le
  · rw [hpolls]
    exact fun hapart => congrArg leave (h.same hapart)
  · rw [hpolls]
    exact fun hfirst hlast => hpasses (h.cancelled hfirst hlast)
  · rw [hpolls, hpolls']
    exact h.polls
  · rw [hpolls, Env.answer, hflag]
    exact fun hfirst hlast htold => congrArg leave (h.told hfirst hlast htold)

end Heeds

/-! ## Steps -/

namespace HeedsPoll

variable {env : Env} {n : Nat} {α β : Type}

theorem of_silent {x : Eval α} (h : ∀ s, (x s).2.polls = s.polls) : HeedsPoll env n x x :=
  fun s => .of_silent (h s)

theorem pure (value : α) : HeedsPoll env n (Pure.pure value) (Pure.pure value) := of_silent fun _ => rfl

theorem read {f g : State → Eval α} (h : ∀ s, HeedsPoll env n (f s) (g s)) :
    HeedsPoll env n (get >>= f) (get >>= g) := fun s => h s s

theorem update {f : State → State} (h : ∀ s, (f s).polls = s.polls) :
    HeedsPoll env n (modify f : Eval PUnit) (modify f) := of_silent h

theorem bind {x y : Eval α} {f g : α → Eval β} (hxy : HeedsPoll env n x y)
    (hfg : ∀ value, HeedsPoll env n (f value) (g value)) : HeedsPoll env n (x >>= f) (y >>= g) := by
  intro s
  have hfirst := hxy s
  rw [Eval.bind_apply, Eval.bind_apply]
  rcases hrun : x s with ⟨stop | a, t⟩
  · -- The first step fails, and nothing follows it.
    rw [hrun] at hfirst
    rcases hstopped : y s with ⟨other | value, u⟩
    · rw [hstopped] at hfirst
      constructor
      · exact hfirst.le
      · intro hapart
        cases hfirst.same hapart
        rfl
      · intro hbegin hend
        obtain ⟨failure, hresult, hcancelled⟩ := hfirst.cancelled hbegin hend
        cases hresult
        exact ⟨failure, rfl, hcancelled⟩
      · exact hfirst.polls
      · intro hbegin hend htold
        cases hfirst.told hbegin hend htold
        rfl
    · rw [hstopped] at hfirst
      by_cases hinside : s.polls ≤ n ∧ n < t.polls
      · obtain ⟨failure, hresult, -⟩ := hfirst.cancelled hinside.1 hinside.2
        cases hresult
      · cases hfirst.same (by dsimp only; omega)
  · rw [hrun] at hfirst
    have hrest := hfg a t
    by_cases hinside : s.polls ≤ n ∧ n < t.polls
    · -- The poll is in the first step. It was not told to stop, since that step succeeds.
      have hanswer := hfirst.of_ok hinside.1 hinside.2
      obtain ⟨failure, hresult, hcancelled⟩ := hfirst.cancelled hinside.1 hinside.2
      have hpolls := hfirst.polls hinside.1 hinside.2
      have hle := hrest.le
      rcases hstopped : y s with ⟨result, u⟩
      rw [hstopped] at hresult hpolls hanswer
      obtain rfl : result = .error (.failed failure) := hresult
      dsimp only at hpolls hanswer ⊢
      constructor
      · omega
      · omega
      · exact fun _ _ => ⟨failure, rfl, hcancelled⟩
      · exact fun _ _ => hpolls
      · intro _ _ htold
        rw [hanswer] at htold
        cases htold
    · have hle := hfirst.le
      dsimp only at hle
      rw [hfirst.same (by dsimp only; omega)]
      dsimp only
      constructor
      · exact Nat.le_trans hle hrest.le
      · exact fun hapart => hrest.same (by omega)
      · exact fun _ hlast => hrest.cancelled (by omega) hlast
      · exact fun _ hlast => hrest.polls (by omega) hlast
      · exact fun _ hlast => hrest.told (by omega) hlast

theorem poll (env : Env) (n : Nat) : HeedsPoll env n (Eval.poll env) (Eval.poll (env.stoppedAt n)) := by
  intro s
  rw [poll_apply, poll_apply]
  by_cases hn : n = s.polls
  · subst hn
    have hstopped : ((env.stoppedAt s.polls).interrupts s.polls ||
        ((env.stoppedAt s.polls).shared && s.cancelled)) = true := by simp [Env.stoppedAt]
    rw [if_pos hstopped]
    constructor
    · exact Nat.le_succ _
    · dsimp only
      omega
    · exact fun _ _ => ⟨_, rfl, rfl⟩
    · exact fun _ _ => rfl
    · intro _ _ htold
      rw [if_pos (show (env.interrupts s.polls || (env.shared && s.cancelled)) = true from htold)]
  · have hsame : (env.stoppedAt n).interrupts s.polls = env.interrupts s.polls := by
      simp only [Env.stoppedAt, beq_false_of_ne (Ne.symm hn), Bool.or_false]
    rw [hsame]
    constructor
    · exact Nat.le_succ _
    · exact fun _ => rfl
    · dsimp only
      omega
    · dsimp only
      omega
    · exact fun _ _ _ => rfl

/-- What only changes results that are no cancellations, and the state in places that no poll looks at. -/
theorem around {x y : Eval α} (hxy : HeedsPoll env n x y)
    (leave : Except Stop α × State → Except Stop β × State) (hleave : PassesCancellation leave)
    (enter : State → State) (henter : ∀ s, (enter s).polls = s.polls) :
    HeedsPoll env n (fun s => leave (x (enter s)) : Eval β) (fun s => leave (y (enter s)) : Eval β) := by
  intro s
  have h := (hxy (enter s)).passed leave hleave
  rwa [henter] at h

theorem locating {x y : Eval α} (hxy : HeedsPoll env n x y) (locate : Failure → Failure)
    (hlocate : ∀ failure, (locate failure).cause = failure.cause) :
    HeedsPoll env n (x.locating locate) (y.locating locate) := by
  refine hxy.around (Eval.located locate) ?_ id fun _ => rfl
  rintro ⟨(failure | _) | value, t⟩
  · refine ⟨rfl, rfl, ?_⟩
    rintro ⟨_, hresult, hcancelled⟩
    cases hresult
    refine ⟨_, rfl, ?_⟩
    rwa [Failure.isCancellation, hlocate]
  · exact ⟨rfl, rfl, id⟩
  · exact ⟨rfl, rfl, id⟩

theorem catching {x y : Eval Datum} (hxy : HeedsPoll env n x y) (scope : Scope) (id : Template.NodeId)
    (current : Datum) :
    HeedsPoll env n (Eval.catching env scope id current x)
      (Eval.catching (env.stoppedAt n) scope id current y) := by
  refine hxy.around (Eval.caught env scope id current) ?_ (fun s => s) fun _ => rfl
  unfold Eval.caught
  rintro ⟨(failure | _) | value, t⟩
  · cases env.mode with
    | generation => exact ⟨rfl, rfl, fun h => h⟩
    | preview =>
      dsimp only
      split
      · exact ⟨rfl, rfl, fun h => h⟩
      · next hcancelled =>
        refine ⟨rfl, rfl, ?_⟩
        rintro ⟨_, hresult, hcancelled'⟩
        cases hresult
        exact absurd hcancelled' hcancelled
  · cases env.mode <;> exact ⟨rfl, rfl, fun h => h⟩
  · cases env.mode <;> exact ⟨rfl, rfl, fun h => h⟩

theorem recording {x y : Eval Datum} (hxy : HeedsPoll env n x y) (ref : Script.Ref) :
    HeedsPoll env n (Eval.recording ref x) (Eval.recording ref y) := by
  refine hxy.around (Eval.recorded ref) ?_ id fun _ => rfl
  rintro ⟨(failure | _) | d, t⟩ <;> exact ⟨rfl, rfl, id⟩

theorem withFrame {x y : Eval α} (hxy : HeedsPoll env n x y) (frame : Frame) :
    HeedsPoll env n (Eval.withFrame frame x) (Eval.withFrame frame y) :=
  hxy.around (fun outcome => (outcome.1, { outcome.2 with frames := outcome.2.frames.drop 1 }))
    (fun _ => ⟨rfl, rfl, id⟩) (fun s => { s with frames := frame :: s.frames }) fun _ => rfl

theorem whileActive {x y : Eval α} (hxy : HeedsPoll env n x y) (pair : Script.Ref × ObjectId) :
    HeedsPoll env n (Eval.whileActive pair x) (Eval.whileActive pair y) :=
  hxy.around (fun outcome => (outcome.1, { outcome.2 with active := outcome.2.active.erase pair }))
    (fun _ => ⟨rfl, rfl, id⟩) (fun s => { s with active := pair :: s.active }) fun _ => rfl

end HeedsPoll

theorem congruence_heedsPoll (env : Env) (n : Nat) :
    Congruence env (env.stoppedAt n) (fun _ => True) (HeedsPoll env n) where
  agree := ⟨rfl, rfl, rfl, rfl, rfl⟩
  pure value := .pure value
  throw stop := .of_silent fun _ => rfl
  bind := .bind
  frames hfg := .read fun s => hfg s.frames
  active hfg := .read fun s => hfg s.active
  resolve object name hfg := .bind (.of_silent fun _ => rfl) fun found => hfg found fun _ _ => trivial
  poll := .poll env n
  cancel := .update fun _ => rfl
  locating locate hlocate hxy := hxy.locating locate hlocate
  catching scope id current hxy := hxy.catching scope id current
  recording ref hxy := hxy.recording ref
  withFrame frame hxy := hxy.withFrame frame
  whileActive pair hxy := hxy.whileActive pair
  callScript ref source object args hscript := by
    unfold callScript
    change HeedsPoll env n (if args.isEmpty && env.generator.config.cacheResults then _ else _)
      (if args.isEmpty && env.generator.config.cacheResults then _ else _)
    split
    · refine .read fun s => ?_
      split
      · exact .pure _
      · exact .bind hscript fun result => .bind (.update fun _ => rfl) fun _ => .pure _
    · exact hscript

/-! ## Calls -/

/-- A poll of a call that is told to stop, whenever that is and whatever is being evaluated, is the last one:
the call ends with a cancellation, and no script is entered behind the poll. -/
theorem cancelled_of_answerAt (env : Env) (call : Call) (s : State) (n : Nat) (hfirst : s.polls ≤ n)
    (hlast : n < (call.perform env s).2.polls) (hanswer : answerAt env call s n = true) :
    IsCancelled (call.perform env s).1 ∧ (call.perform env s).2.polls = n + 1 := by
  have h := (congruence_heedsPoll env n).perform call s
  have hsame := h.told hfirst hlast hanswer
  rw [← hsame]
  exact ⟨h.cancelled hfirst hlast, h.polls hfirst hlast⟩

/-- In a preview, a service raises the flag. The next statement enters a script, and the one behind it would. -/
theorem cancelled_of_answerAt_service :
    let host : ServiceSet := ⟨"host", [.ofSimple "stop" ⟨.null, [], .null⟩ .cancel]⟩
    let generator := ({} : Generator).after [.registerServices host, .addFile "a.mt"
      "<%import host%>\n<%script type=\"C\" name=\"s\"%>\na<%stop()%><%t%><%t%>\n<%script type=\"C\" name=\"t\"%>\nb\n"]
    let env : Env :=
      { generator, mode := .preview, shared := true
        model := { model := { objects := #[{ typeName := "C", features := [] }] } } }
    IsCancelled ((Call.render "s" 0).perform env {}).1 ∧ ((Call.render "s" 0).perform env {}).2.polls = 2 := by
  intro host generator env
  have hpolled : 1 < ((Call.render "s" 0).perform env {}).2.polls ∧ answerAt env (.render "s" 0) {} 1 = true := by
    decide +kernel
  exact cancelled_of_answerAt env (.render "s" 0) {} 1 (Nat.zero_le 1) hpolled.1 hpolled.2

end ModelText.Evaluation
