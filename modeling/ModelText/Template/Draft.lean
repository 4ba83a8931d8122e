import ModelText.Template.Diagnostic
import ModelText.Template.Tree

/-!
# Trees under construction

Reading a template adds nodes to a tree and records diagnostics. An expression that cannot be read
gives up with a diagnostic; the nodes it added stay in the tree.
-/

namespace ModelText.Template

/-- The text that is read, with the delimiters of its dialect. -/
structure Input where
  src : Source
  dialect : Dialect

/-- What has been read so far. -/
structure Draft where
  tree : Tree
  diagnostics : Array Diagnostic := #[]

/-- A step that adds to a draft. -/
abbrev Build := StateM Draft

/-- A step that adds to a draft and may give up. -/
abbrev Attempt := ExceptT Diagnostic Build

namespace Input

/-- A text in the dialect that its first character tells. -/
def ofString (text : String) : Input := ⟨Source.ofString text, Dialect.detect text⟩

def tags (inp : Input) : Tags := inp.dialect.tags

/-- The text between two offsets. -/
def slice (inp : Input) (start stop : Nat) : String := inp.src.slice (Span.ordered start stop)

/-- An error at a span. -/
def error (inp : Input) (span : Span) (problem : Problem) : Diagnostic :=
  .ofSpan inp.src .error span problem

/-- Whether the character at an offset ends a keyword: white space or an opening parenthesis. -/
def endsKeyword (inp : Input) (offset : Nat) : Bool :=
  (inp.src.charAt? offset).any fun c => Text.isBlank c || c == '('

end Input

/-- The draft before anything was read. -/
def Draft.start (dialect : Dialect) : Draft := { tree := { dialect } }

namespace Build

/-- Adds a node above its children and answers its index. -/
def node (kind : NodeKind) (span : Span) (children : List NodeId) : Build NodeId :=
  modifyGet fun d => (d.tree.size, { d with tree := d.tree.push kind span children })

/-- Records a diagnostic. -/
def report (diagnostic : Diagnostic) : Build Unit :=
  modify fun d => { d with diagnostics := d.diagnostics.push diagnostic }

end Build

end ModelText.Template
