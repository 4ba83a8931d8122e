import ModelText.Service.Basic

/-!
# Simple host services

Services that a host can register to pass values through, to look at them, to fail and to cancel.
-/

namespace ModelText.Service

/-- What a simple service does. -/
inductive Simple where
  /-- Answers the receiver. -/
  | receiver
  /-- Answers the first argument, or null. -/
  | firstArgument
  /-- Answers the kinds and the texts of the receiver and the arguments. -/
  | describe
  /-- Answers the receiver and the arguments as a list. -/
  | list
  /-- Fails with the text of the receiver. -/
  | fail
  /-- Fails without a report. -/
  | failQuietly
  /-- Cancels the evaluation and answers the receiver. -/
  | cancel
  deriving DecidableEq, Repr

/-- The kind and the text of a value. -/
def describeDatum (a : Accessor) (d : Datum) : String :=
  s!"{d.value.kind.name}:{d.value.plain a}"

/-- A simple service under a name. -/
def ofSimple (name : String) (signature : Signature) (simple : Simple) : Service :=
  { name, signature
    cancels := simple = .cancel
    run := fun a d args =>
      match simple with
      | .receiver | .cancel => .ok d
      | .firstArgument => .ok (args.head?.getD (Datum.null d))
      | .describe =>
        .ok (Datum.ofString (String.intercalate "|" ((d :: args).map (describeDatum a))) d)
      | .list => .ok (Datum.ofList ((d :: args).foldl (·.pushDatum a ·) {}) d)
      | .fail => .error { cause := .invalidArgument name (d.value.plain a) }
      | .failQuietly => .error { cause := .divisionByZero, reported := false } }

end ModelText.Service
