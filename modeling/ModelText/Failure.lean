import ModelText.Span
import ModelText.Value.Kind

/-!
# Failures of evaluation

A failure has a cause. On its way out of the evaluation it learns where it arose: the span of the
template node, the script and the object. What is learned first stays.
-/

namespace ModelText

/-- Why an evaluation failed. -/
inductive Cause where
  | recursiveCall (script object : String)
  | unresolvedCall (name : String)
  | unresolvedTemplate (typeName name : String)
  | cancelled
  | divisionByZero
  | invalidArgument (name message : String)
  | cast (error : CastError)
  | model (message : String)
  deriving DecidableEq, Repr

/-- The wording of a cause. -/
def Cause.message : Cause → String
  | .recursiveCall script object => s!"Recursive call of script '{script}' on {object}"
  | .unresolvedCall name => s!"Unresolved call '{name}'"
  | .unresolvedTemplate typeName name => s!"No script '{name}' for type '{typeName}'"
  | .cancelled => "Evaluation cancelled"
  | .divisionByZero => "Division by zero"
  | .invalidArgument name message => s!"Invalid argument for '{name}': {message}"
  | .cast error => error.message
  | .model message => s!"Model access failed: {message}"

/-- A failed evaluation. -/
structure Failure where
  cause : Cause
  span : Option Span := none
  script : Option String := none
  object : Option String := none
  /-- Whether the failure belongs into the log. -/
  reported : Bool := true
  deriving DecidableEq, Repr

namespace Failure

/-- The wording of a failure, with what is known of its place. -/
def message (f : Failure) : String :=
  f.cause.message ++
  (match f.script with
    | some script => " in script '" ++ script ++ "'"
    | none => "") ++
  (match f.span with
    | some span => " at " ++ span.text
    | none => "") ++
  (match f.object with
    | some object => " on " ++ object
    | none => "")

def isCancellation (f : Failure) : Bool := f.cause = .cancelled

/-- Fills in what is not known yet of the place. -/
def located (f : Failure) (span : Span) (script object : Option String) : Failure :=
  { f with
    span := f.span.orElse fun _ => some span
    script := f.script.orElse fun _ => script
    object := f.object.orElse fun _ => object }

end Failure

end ModelText
