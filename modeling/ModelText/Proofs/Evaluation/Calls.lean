import ModelText.Proofs.Evaluation.Texts

/-!
# Calls of an evaluator

A host asks an evaluator to evaluate a script, to render an object or for the path of a generated
file, one call after the other. What a call changes stays for the calls after it.
-/

namespace ModelText.Evaluation

/-- What a host asks an evaluator for. -/
inductive Call where
  | script (ref : Script.Ref) (current : Datum) (args : List Datum)
  | render (name : String) (object : ObjectId)
  | path (ref : Script.Ref) (object : ObjectId)

/-- What an evaluator answers. -/
inductive Answer where
  | datum (d : Datum)
  | path (path : Option String)

namespace Call

/-- Carries out a call. -/
def perform (env : Env) : Call → Eval Answer
  | script ref current args => Answer.datum <$> evaluateScript env ref current args
  | render name object => Answer.datum <$> Evaluation.render env name object
  | path ref object => Answer.path <$> evaluatePath env ref object

/-- Whether all texts that a call passes on satisfy `P`. -/
def All (P : TracedText → Prop) : Call → Prop
  | script _ current args => Datum.All P current ∧ ∀ arg ∈ args, Datum.All P arg
  | render _ _ | path _ _ => True

end Call

/-- Whether all texts in an answer satisfy `P`. -/
def Answer.All (P : TracedText → Prop) : Answer → Prop
  | .datum d => Datum.All P d
  | .path _ => True

variable {env : Env} {P : TracedText → Prop} {M : Script.Memo → Prop}

theorem Keeps.map {α β : Type} {I : State → Prop} {Q : α → Prop} {R : β → Prop} {x : Eval α}
    (hx : Keeps I Q x) {f : α → β} (hf : ∀ value, Q value → R (f value)) : Keeps I R (f <$> x) := by
  rw [map_eq_pure_bind]
  exact Keeps.bind hx fun value hvalue => Keeps.pure (hf value hvalue)

/-- A call keeps what the evaluations behind it keep. -/
theorem keeps_perform (hc : Closed env P M) {call : Call} (hcall : call.All P) :
    Keeps (Holds P M) (Answer.All P) (call.perform env) := by
  cases call with
  | script ref current args => exact (yields_evaluateScript hc ref hcall.1 hcall.2).map fun _ h => h
  | render name object => exact (yields_render hc name object).map fun _ h => h
  | path ref object => exact (keeps_evaluatePath hc ref object).map fun _ _ => trivial

/-- Without services of a host, an evaluation keeps every property that operations on texts keep. -/
theorem closed_of_builtins (hP : TextClass P) (h : env.generator.serviceSets = []) :
    Closed env P fun _ => True where
  texts := hP
  services file name arity service hservice := by
    have himported (imports : List Script.HeaderEntry) : (imports.filterMap fun entry =>
        env.generator.serviceSets.find? (·.name = entry.value)) = [] := by
      simp [h]
    rw [Generator.findService?, himported] at hservice
    exact Service.preserves_builtins hP service (List.mem_of_find?_eq_some hservice)
  resolve _ _ _ _ := trivial

end ModelText.Evaluation
