import ModelText.Evaluation.Run

/-!
# What evaluation steps keep

`Keeps I Q x` says of a step `x` that it leads from states with `I` to states with `I`, whether it
fails or not, and that its results satisfy `Q`. There is one rule for each way to put steps together,
so a statement about a whole evaluation needs a lemma for each kind of task only.
-/

namespace ModelText.Evaluation

/-- From a state with `I` the step ends in a state with `I`, and its result, if any, satisfies `Q`. -/
def Keeps {α : Type} (I : State → Prop) (Q : α → Prop) (x : Eval α) : Prop :=
  ∀ s, I s → I (x s).2 ∧ ∀ value, (x s).1 = .ok value → Q value

namespace Eval

variable {α β : Type}

/-- The run of two steps in a row. -/
theorem bind_apply (x : Eval α) (f : α → Eval β) (s : State) :
    (x >>= f) s = match x s with
      | (.ok value, s) => f value s
      | (.error stop, s) => (.error stop, s) := by
  change ExceptT.bindCont f (x s).1 (x s).2 = _
  cases x s with
  | mk result s' => cases result <;> rfl

end Eval

namespace Keeps

variable {α β : Type} {I : State → Prop} {P : α → Prop} {Q : β → Prop}

/-- A step that always answers the same and changes nothing. -/
theorem pure {value : α} (h : P value) : Keeps I P (Pure.pure value) := by
  intro s hs
  refine ⟨hs, fun result hresult => ?_⟩
  cases hresult
  exact h

theorem throw (stop : Stop) : Keeps I P (MonadExcept.throw stop : Eval α) := by
  intro s hs
  refine ⟨hs, fun result hresult => ?_⟩
  cases hresult

theorem fail (failure : Failure) : Keeps I P (Eval.fail failure : Eval α) := throw _

theorem failWith (cause : Cause) : Keeps I P (Eval.failWith cause : Eval α) := throw _

theorem ofExcept {x : Except Failure α} (h : ∀ value, x = .ok value → P value) :
    Keeps I P (Eval.ofExcept x) := by
  cases x with
  | ok value => exact pure (h value rfl)
  | error failure => exact fail failure

theorem ofCast {x : Except CastError α} (h : ∀ value, x = .ok value → P value) :
    Keeps I P (Eval.ofCast x) := by
  cases x with
  | ok value => exact pure (h value rfl)
  | error error => exact failWith _

theorem bind {x : Eval α} {f : α → Eval β} (hx : Keeps I P x)
    (hf : ∀ value, P value → Keeps I Q (f value)) : Keeps I Q (x >>= f) := by
  intro s hs
  obtain ⟨hstate, hvalue⟩ := hx s hs
  rw [Eval.bind_apply]
  cases hrun : x s with
  | mk result s' =>
    rw [hrun] at hstate hvalue
    cases result with
    | ok value => exact hf value (hvalue value rfl) s' hstate
    | error stop => exact ⟨hstate, fun _ h => by cases h⟩

theorem mono {x : Eval α} {P' : α → Prop} (hx : Keeps I P x) (h : ∀ value, P value → P' value) :
    Keeps I P' x :=
  fun s hs => ⟨(hx s hs).1, fun value hvalue => h value ((hx s hs).2 value hvalue)⟩

/-- A step that reads the state. -/
theorem get {P : State → Prop} (h : ∀ s, I s → P s) : Keeps I P (MonadState.get : Eval State) := by
  intro s hs
  refine ⟨hs, fun result hresult => ?_⟩
  cases hresult
  exact h s hs

/-- A step that changes the state. -/
theorem update {f : State → State} (h : ∀ s, I s → I (f s)) :
    Keeps I (fun _ => True) (modify f : Eval PUnit) :=
  fun s hs => ⟨h s hs, fun _ _ => trivial⟩

/-- A step that changes the state to one with `I`. -/
theorem replace {s' : State} (h : I s') : Keeps I (fun _ => True) (set s' : Eval PUnit) :=
  fun _ _ => ⟨h, fun _ _ => trivial⟩

theorem attempt {x : Eval α} (hx : Keeps I P x) :
    Keeps I (fun result => ∀ value, result = .ok value → P value) x.attempt := by
  intro s hs
  obtain ⟨hstate, hvalue⟩ := hx s hs
  unfold Eval.attempt
  rcases hrun : x s with ⟨result, s'⟩
  rw [hrun] at hstate hvalue
  rcases result with (failure | _) | value
  · refine ⟨hstate, fun result hresult value hok => ?_⟩
    cases hresult
    cases hok
  · exact ⟨hstate, fun _ h => by cases h⟩
  · refine ⟨hstate, fun result hresult value' hok => ?_⟩
    cases hresult
    cases hok
    exact hvalue value rfl

theorem locating {x : Eval α} (hx : Keeps I P x) (locate : Failure → Failure) :
    Keeps I P (x.locating locate) := by
  intro s hs
  obtain ⟨hstate, hvalue⟩ := hx s hs
  unfold Eval.locating
  rcases hrun : x s with ⟨result, s'⟩
  rw [hrun] at hstate hvalue
  rcases result with (failure | _) | value
  · exact ⟨hstate, fun _ h => by cases h⟩
  · exact ⟨hstate, fun _ h => by cases h⟩
  · exact ⟨hstate, hvalue⟩

/-- A step in a frame of its own, which is entered with `I` and left with `I`. -/
theorem withFrame {frame : Frame} {x : Eval α} (hx : Keeps I P x)
    (enter : ∀ s, I s → I { s with frames := frame :: s.frames })
    (leave : ∀ s, I s → I { s with frames := s.frames.drop 1 }) :
    Keeps I P (Eval.withFrame frame x) := by
  intro s hs
  obtain ⟨hstate, hvalue⟩ := hx _ (enter s hs)
  exact ⟨leave _ hstate, hvalue⟩

theorem whileActive {pair : Script.Ref × ObjectId} {x : Eval α} (hx : Keeps I P x)
    (irrelevant : ∀ s active, I s → I { s with active }) :
    Keeps I P (Eval.whileActive pair x) := by
  intro s hs
  obtain ⟨hstate, hvalue⟩ := hx _ (irrelevant s (pair :: s.active) hs)
  exact ⟨irrelevant _ _ hstate, hvalue⟩

theorem mapM {f : β → Eval α} {items : List β} (hf : ∀ item ∈ items, Keeps I P (f item)) :
    Keeps I (fun results => ∀ result ∈ results, P result) (items.mapM f) := by
  induction items with
  | nil => exact pure (by simp)
  | cons item rest ih =>
    rw [List.mapM_cons]
    refine bind (hf item (by simp)) fun result hresult => ?_
    refine bind (ih fun item hitem => hf item (by simp [hitem])) fun results hresults => ?_
    exact pure (by simpa using ⟨hresult, hresults⟩)

end Keeps

end ModelText.Evaluation
