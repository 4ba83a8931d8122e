import ModelText.Proofs.Evaluation.Congruence

/-!
# More fuel

Fuel only bounds how deep an evaluation may go. One that ends within it has the same result with more fuel, and
leaves the same state behind.
-/

namespace ModelText.Evaluation

/-- The second step does what the first one does, unless the first one runs out of fuel. -/
def Approaches ⦃α : Type⦄ (x y : Eval α) : Prop := ∀ s, (x s).1 = .error .unfinished ∨ y s = x s

namespace Approaches

variable {env : Env} {α β : Type} {x y z : Eval α}

theorem refl (x : Eval α) : Approaches x x := fun _ => .inr rfl

theorem trans (hxy : Approaches x y) (hyz : Approaches y z) : Approaches x z := by
  intro s
  rcases hxy s with h | h
  · exact .inl h
  · rcases hyz s with h' | h'
    · exact .inl (h ▸ h')
    · exact .inr (h'.trans h)

theorem of_unfinished (h : ∀ s, (x s).1 = .error .unfinished) : Approaches x y := fun s => .inl (h s)

theorem bind {f g : α → Eval β} (hxy : Approaches x y) (hfg : ∀ value, Approaches (f value) (g value)) :
    Approaches (x >>= f) (y >>= g) := by
  intro s
  rw [Eval.bind_apply, Eval.bind_apply]
  rcases hxy s with h | h
  · rcases hrun : x s with ⟨stop | value, t⟩
    · rw [hrun] at h
      cases h
      exact .inl rfl
    · rw [hrun] at h
      cases h
  · rw [h]
    rcases x s with ⟨stop | value, t⟩
    · exact .inr rfl
    · exact hfg value t

/-- What is done around a step does not make up for a lack of fuel. -/
theorem around (hxy : Approaches x y) (leave : Except Stop α × State → Except Stop β × State)
    (hleave : ∀ t, (leave (.error .unfinished, t)).1 = .error .unfinished) (enter : State → State) :
    Approaches (fun s => leave (x (enter s)) : Eval β) (fun s => leave (y (enter s)) : Eval β) := by
  intro s
  rcases hxy (enter s) with h | h
  · have hrun : x (enter s) = (.error .unfinished, (x (enter s)).2) := Prod.ext h rfl
    exact .inl ((congrArg (fun outcome => (leave outcome).1) hrun).trans (hleave _))
  · exact .inr (congrArg leave h)

theorem callScript {recur recur' : Recur} (ref : Script.Ref) (source : Template.NodeRef) (object : ObjectId)
    (args : List Datum)
    (h : Approaches (recur (.script ref (.root object) args)) (recur' (.script ref (.root object) args))) :
    Approaches (Evaluation.callScript env recur ref source object args)
      (Evaluation.callScript env recur' ref source object args) := by
  unfold Evaluation.callScript
  split
  · refine bind (refl _) fun s => ?_
    split
    · exact refl _
    · exact bind h fun result => refl _
  · exact h

/-- All ways to put evaluations together keep to what their parts do. -/
theorem congruence (env : Env) : Congruence env env (fun _ => True) Approaches where
  agree := ⟨rfl, rfl, rfl, rfl, rfl⟩
  pure _ := refl _
  throw _ := refl _
  bind := bind
  frames h := fun s => h s.frames s
  active h := fun s => h s.active s
  resolve _ _ h := bind (refl _) fun found => h found fun _ _ => trivial
  poll := refl _
  cancel := refl _
  locating locate _ hxy := hxy.around (Eval.located locate) (fun _ => rfl) id
  catching scope node current hxy :=
    hxy.around (Eval.caught env scope node current) (fun _ => by unfold Eval.caught; cases env.mode <;> rfl) id
  recording ref hxy := hxy.around (Eval.recorded ref) (fun _ => rfl) id
  withFrame frame hxy := hxy.around
    (fun outcome => (outcome.1, { outcome.2 with frames := outcome.2.frames.drop 1 })) (fun _ => rfl)
    fun s => { s with frames := frame :: s.frames }
  whileActive pair hxy := hxy.around
    (fun outcome => (outcome.1, { outcome.2 with active := outcome.2.active.erase pair })) (fun _ => rfl)
    fun s => { s with active := pair :: s.active }
  callScript ref source object args h := callScript ref source object args h

end Approaches

/-- With one more step of depth, a task is evaluated as before unless it ran out of fuel. -/
theorem approaches_run_succ (env : Env) (fuel : Nat) (task : Task) :
    Approaches (run env fuel task) (run env (fuel + 1) task) := by
  induction fuel generalizing task with
  | zero => exact .of_unfinished fun _ => rfl
  | succ fuel ih => exact (Approaches.congruence env).step (fun task _ => ih task) task

theorem approaches_run (env : Env) {fuel fuel' : Nat} (hle : fuel ≤ fuel') (task : Task) :
    Approaches (run env fuel task) (run env fuel' task) := by
  induction hle with
  | refl => exact .refl _
  | step _ ih => exact ih.trans (approaches_run_succ env _ task)

/-! ## Evaluations that end -/

/-- An evaluation that leaves tasks to a function for them ends with a result, or a failure, and a state when
the tasks may go deep enough. -/
def Settles {α : Type} (env : Env) (x : Recur → Eval α) (s : State) (outcome : Except Stop α × State) : Prop :=
  outcome.1 ≠ .error .unfinished ∧ ∃ fuel, x (run env fuel) s = outcome

variable {env : Env} {α : Type} {x y : Recur → Eval α} {s : State} {outcome : Except Stop α × State}

theorem Settles.of_approaches (h : ∀ fuel, ∃ fuel', Approaches (x (run env fuel)) (y (run env fuel')))
    (hx : Settles env x s outcome) : Settles env y s outcome := by
  obtain ⟨hends, fuel, rfl⟩ := hx
  obtain ⟨fuel', happroaches⟩ := h fuel
  exact ⟨hends, fuel', (happroaches s).resolve_left hends⟩

end ModelText.Evaluation
