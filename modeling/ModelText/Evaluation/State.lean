import ModelText.Generator.Basic

/-!
# The state of an evaluation

An evaluation keeps a stack of frames: one for each script that is being evaluated, with its
arguments, and one for each pass of a loop, with its index. No script is entered for an object while
its body is being evaluated for the same object. A failure ends an evaluation unless it is caught;
running out of fuel always ends it.
-/

namespace ModelText

open Template (FileId NodeId NodeRef NodeKind)

/-- What becomes of failures. -/
inductive EvalMode where
  /-- A failure ends the evaluation. -/
  | generation
  /-- A failure of a statement is logged and the statement yields nothing. -/
  | preview
  deriving DecidableEq, Repr, Inhabited

namespace Evaluation

/-- What a script call or a pass of a loop works on. -/
structure Frame where
  node : Datum
  args : List Datum := []
  index : Option Nat := none
  script : Option Script.Ref := none

/-- What an evaluation does not change. -/
structure Env where
  generator : Generator
  model : Accessor
  mode : EvalMode := .generation
  /-- Whether scripts are not entered any more once a service asked for cancellation. -/
  shared : Bool := false
  /-- What an outside flag answers when it is polled at the entry of a script, by the number of the
  poll. -/
  interrupts : Nat → Bool := fun _ => false

/-- What an evaluation changes. -/
structure State where
  /-- The frames, the innermost first. -/
  frames : List Frame := []
  /-- The scripts whose bodies are being evaluated, with their objects. -/
  active : List (Script.Ref × ObjectId) := []
  /-- Results of script calls, by the calling node and the object. -/
  cache : List ((NodeRef × ObjectId) × Datum) := []
  /-- Whether the last evaluation of a script yielded nothing. -/
  outcomes : List (Script.Ref × Bool) := []
  memo : Script.Memo := []
  /-- Whether cancellation was asked for. -/
  cancelled : Bool := false
  /-- The number of polls so far. -/
  polls : Nat := 0

/-- Why an evaluation ends without a result. -/
inductive Stop where
  | failed (failure : Failure)
  | unfinished
  deriving Repr

/-- An evaluation step. The state is kept when it fails. -/
abbrev Eval := ExceptT Stop (StateM State)

namespace Eval

/-- Ends with a failure. -/
def fail {α : Type} (failure : Failure) : Eval α := throw (.failed failure)

/-- Ends with a failure of which only the cause is known. -/
def failWith {α : Type} (cause : Cause) : Eval α := fail { cause }

/-- Catches a failure. -/
def attempt {α : Type} (x : Eval α) : Eval (Except Failure α) := fun s =>
  match x s with
  | (.ok value, s) => (.ok (.ok value), s)
  | (.error (.failed failure), s) => (.ok (.error failure), s)
  | (.error .unfinished, s) => (.error .unfinished, s)

/-- Goes on with a result or a failure. -/
def ofExcept {α : Type} : Except Failure α → Eval α
  | .ok value => pure value
  | .error failure => fail failure

/-- Goes on with the result of a conversion. -/
def ofCast {α : Type} : Except CastError α → Eval α
  | .ok value => pure value
  | .error error => failWith (.cast error)

/-- Tells a failure where it arose. -/
def locating {α : Type} (x : Eval α) (locate : Failure → Failure) : Eval α := fun s =>
  match x s with
  | (.error (.failed failure), s) => (.error (.failed (locate failure)), s)
  | other => other

/-- Evaluates with one more frame. -/
def withFrame {α : Type} (frame : Frame) (x : Eval α) : Eval α := fun s =>
  match x { s with frames := frame :: s.frames } with
  | (result, s) => (result, { s with frames := s.frames.drop 1 })

/-- Evaluates while a script is active for an object. -/
def whileActive {α : Type} (pair : Script.Ref × ObjectId) (x : Eval α) : Eval α := fun s =>
  match x { s with active := pair :: s.active } with
  | (result, s) => (result, { s with active := s.active.erase pair })

/-- Ends with a cancellation if one was asked for. -/
def poll (env : Env) : Eval Unit := do
  let s ← get
  set { s with polls := s.polls + 1 }
  if env.interrupts s.polls || (env.shared && s.cancelled) then failWith .cancelled

end Eval

/-- Where nodes that are evaluated stand: their file and their script. -/
structure Scope where
  fileId : FileId
  file : Script.File
  script : Script.Declaration

namespace Scope

def ref (scope : Scope) (node : NodeId) : NodeRef := ⟨scope.fileId, node⟩

def kind? (scope : Scope) (node : NodeId) : Option NodeKind := scope.file.tree.kind? node

end Scope

/-- The type of an object; an object of no known type is of the root type. -/
def Env.typeOf (env : Env) (object : ObjectId) : String :=
  (env.model.typeOf object).getD env.generator.config.rootType

/-- The script for an object. -/
def resolveFor (env : Env) (object : ObjectId) (name : String) : Eval (Option Script.Ref) :=
  modifyGet fun s =>
    let (found, memo) := env.generator.registry.resolve env.model (env.typeOf object) name
      env.generator.config.rootType s.memo
    (found, { s with memo })

end Evaluation

end ModelText
