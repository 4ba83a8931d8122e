import ModelText.Source.Lines

/-!
# Diagnostics

Problems found while reading and linking templates. Each has a cause, a span, and the line and the
column where the span starts.
-/

namespace ModelText

/-- How grave a problem is. An error keeps its source from being used, a warning does not. -/
inductive Severity where
  | warning
  | error
  deriving DecidableEq, Repr, Inhabited

/-- The cause of a problem in a template source. -/
inductive Problem where
  | unmatchedTag (opener closer : String)
  | unexpectedTag (tag : String)
  | duplicateScript (typeName name : String)
  | unresolvedImport (name : String)
  | unresolvedClassifier (name : String)
  | invalidIdentifier (identifier : String) (atChar : Char)
  | missingProperty (property : String)
  | unknownProperty (property : String)
  | invalidExpression (text : String)
  deriving DecidableEq, Repr

/-- The wording of a cause. -/
def Problem.message : Problem → String
  | .unmatchedTag opener closer => s!"Unmatched tag '{opener}', expected '{closer}'"
  | .unexpectedTag tag => s!"Unexpected tag '{tag}'"
  | .duplicateScript typeName name => s!"Duplicate script '{name}' for type '{typeName}'"
  | .unresolvedImport name => s!"Unresolved import '{name}'"
  | .unresolvedClassifier name => s!"Unresolved classifier '{name}'"
  | .invalidIdentifier identifier atChar =>
    s!"Invalid character '{atChar.toString}' in identifier '{identifier}'"
  | .missingProperty property => s!"Missing script property '{property}'"
  | .unknownProperty property => s!"Unknown script property '{property}'"
  | .invalidExpression text => s!"Invalid expression '{text}'"

/-- A problem and its place. -/
structure Diagnostic where
  line : Nat
  column : Nat
  span : Span
  severity : Severity
  problem : Problem
  deriving DecidableEq, Repr

namespace Diagnostic

/-- A problem at a span of a source. -/
def ofSpan (src : Source) (severity : Severity) (span : Span) (problem : Problem) : Diagnostic :=
  let (line, column) := src.lineColumn span.start
  { line, column, span, severity, problem }

def isError (d : Diagnostic) : Bool := d.severity = .error

/-- The wording of a diagnostic, with its place. -/
def message (d : Diagnostic) : String :=
  let severity := match d.severity with
    | .warning => "warning"
    | .error => "error"
  s!"Syntax {severity} at line {d.line}, column {d.column}: {d.problem.message}"

end Diagnostic

end ModelText
