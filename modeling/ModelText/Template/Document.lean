import ModelText.Template.Statement
import ModelText.Template.Unparse

/-!
# Standalone templates

A document is a text that is one template body as a whole. It serves to inspect and to reformat
templates without a generator.
-/

namespace ModelText

/-- A source that cannot be used, with its errors. -/
structure SyntaxFailure where
  file : String
  errors : List Diagnostic
  deriving DecidableEq, Repr

def SyntaxFailure.message (f : SyntaxFailure) : String :=
  let errors := String.intercalate "; " (f.errors.map Diagnostic.message)
  s!"{f.errors.length} syntax error(s) in '{f.file}': {errors}"

namespace Template

/-- The tree of a text, its root and the problems found. -/
structure Parsed where
  tree : Tree
  root : NodeId
  diagnostics : List Diagnostic

/-- Reads a text as one template body, in the dialect that it uses. -/
def parse (text : String) : Parsed :=
  let inp := Input.ofString text
  let (root, draft) := (inp.readBody inp.src.whole).run (Draft.start inp.dialect)
  { tree := draft.tree, root, diagnostics := draft.diagnostics.toList }

/-- A well-formed template on its own. -/
structure Document where
  content : String
  tree : Tree
  root : NodeId
  warnings : List Diagnostic

namespace Document

/-- The name that messages use for a text without a file. -/
def fileName : String := "<template>"

/-- Reads a text. -/
def ofString (content : String) : Except SyntaxFailure Document :=
  let parsed := parse content
  let (errors, warnings) := parsed.diagnostics.partition Diagnostic.isError
  if errors.isEmpty then .ok { content, tree := parsed.tree, root := parsed.root, warnings }
  else .error ⟨fileName, errors⟩

/-- The text of the document, written anew from its tree. -/
def unparse (d : Document) : String := d.tree.unparse d.root

/-- The name of a call. -/
def callName? (t : Tree) (id : NodeId) : Option String :=
  match t.kind? id with
  | some (.call _ name _ _) => some name
  | _ => none

/-- Adds a text to a list that does not have it yet. -/
def addNew (names : List String) (name : String) : List String :=
  if names.contains name then names else names ++ [name]

/-- The names that the document calls, in the order of the text, each once. -/
def callNames (d : Document) : List String :=
  let calls := d.tree.descendants d.root fun kind => kind matches .call _ _ _ _
  let placed := calls.map fun id => ((d.tree.span id).start, id)
  let sorted := placed.mergeSort fun a b => a.1 < b.1 || (a.1 == b.1 && a.2 ≤ b.2)
  (sorted.filterMap fun (_, id) => callName? d.tree id).foldl addNew []

end Document

end Template

end ModelText
