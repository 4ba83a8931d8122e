import ModelText.Script.Name

/-!
# Settings of a generator
-/

namespace ModelText

/-- When the results of features are indented like the text in front of them. -/
inductive AutoIndent where
  /-- In template sources only. -/
  | bySourceKind
  | always
  | never
  deriving DecidableEq, Repr, Inhabited

/-- Whether features of a source of the given kind are indented. -/
def AutoIndent.applies : AutoIndent → Script.SourceKind → Bool
  | .bySourceKind, kind => kind = .template
  | .always, _ => true
  | .never, _ => false

/-- The settings of a generator. -/
structure GeneratorConfig where
  autoIndent : AutoIndent := .bySourceKind
  /-- The type that every object conforms to. Its scripts apply where no better one is found. -/
  rootType : String := "EObject"
  /-- Whether the result of a script without arguments is reused for the same object. -/
  cacheResults : Bool := false
  /-- How many line breaks stay at the end of the body of a script that generates a file. -/
  fileLineBreaks : Nat := 1
  deriving DecidableEq, Repr

end ModelText
