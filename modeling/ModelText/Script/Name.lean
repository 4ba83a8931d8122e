import ModelText.Text.Split

/-!
# Names of script files

The name of a file tells what kind of source it is and names the script of a file without
declarations.
-/

namespace ModelText.Script

/-- The kind of a template source. -/
inductive SourceKind where
  /-- A source whose features are indented like the text in front of them. -/
  | template
  | plain
  deriving DecidableEq, Repr, Inhabited

/-- The kind of a source, told by the extension of its name. -/
def SourceKind.ofName (name : String) : SourceKind :=
  if Text.endsWith name ".mt" then .template else .plain

/-- The name of a file without its folders. -/
def baseName (name : String) : String :=
  String.ofList (name.toList.reverse.takeWhile fun c => c != '/' && c != '\\').reverse

/-- The name of a file without its folders and its extension. A name that only its first character
makes an extension of is kept. -/
def stem (name : String) : String :=
  let base := baseName name
  match Text.splitLast ['.'] base.toList with
  | none | some ([], _) => base
  | some (before, _) => String.ofList before

end ModelText.Script
