import ModelText.Dialect
import ModelText.Template.Literal

/-!
# Template trees

The nodes of a template live in one array and are named by their index. A node is added after the
nodes it is made of, so every reference points to a smaller index. Adding a node links its children:
each learns its parent and its neighbours.
-/

namespace ModelText.Template

/-- The index of a node in its tree. -/
abbrev NodeId := Nat

/-- A binary operator. -/
inductive Operator where
  | or
  | and
  | equal
  | notEqual
  | atLeast
  | atMost
  | greater
  | less
  | add
  | subtract
  | divide
  | multiply
  deriving DecidableEq, Repr

namespace Operator

/-- Every operator, a longer spelling before a shorter one that it begins with. -/
def all : List Operator :=
  [.or, .and, .equal, .notEqual, .atLeast, .atMost, .greater, .less, .add, .subtract, .divide,
    .multiply]

/-- The groups of operators that bind equally, from the loosest to the tightest. -/
def levels : List (List Operator) :=
  [[.or], [.and], [.equal, .notEqual, .atLeast, .atMost, .greater, .less], [.add, .subtract],
    [.divide, .multiply]]

/-- The spelling of an operator. -/
def symbol : Operator → String
  | .or => "||"
  | .and => "&&"
  | .equal => "=="
  | .notEqual => "!="
  | .atLeast => ">="
  | .atMost => "<="
  | .greater => ">"
  | .less => "<"
  | .add => "+"
  | .subtract => "-"
  | .divide => "/"
  | .multiply => "*"

end Operator

/-- Restricts a call to one kind of callable. -/
inductive Qualifier where
  | script
  | service
  | feature
  deriving DecidableEq, Repr

namespace Qualifier

/-- The word that stands before the double colon. -/
def word : Qualifier → String
  | .script => "script"
  | .service => "service"
  | .feature => "feature"

/-- Reads the word before a double colon. -/
def read? (text : String) : Option Qualifier :=
  [.script, .service, .feature].find? fun q => q.word = text

end Qualifier

/-- What a node is, with the nodes that it is made of. -/
inductive NodeKind where
  /-- The statements of a script or of a block. Their nodes are the children of this one. -/
  | template
  | text (content : String)
  | comment (content : String)
  | feature (expression : NodeId)
  | forLoop (iterator body : NodeId)
  | ifElse (condition body : NodeId) (elseIfs : List (NodeId × NodeId)) (otherwise : Option NodeId)
  | literal (value : Literal)
  | negation (operand : NodeId)
  | operation (operator : Operator) (operands : List NodeId)
  | parenthesis (inner : NodeId)
  | call (qualifier : Option Qualifier) (name : String) (filter : Option NodeId)
      (args : List NodeId)
  /-- Calls joined by points, each applied to the result of the one before it. -/
  | chain (calls : List NodeId)
  deriving Repr, Inhabited

/-- Whether a node is a statement of a body. -/
def NodeKind.isStatement : NodeKind → Bool
  | .text _ | .comment _ | .feature _ | .forLoop _ _ | .ifElse _ _ _ _ => true
  | _ => false

/-- A node with its place in the text and its links in the tree. -/
structure Node where
  kind : NodeKind
  span : Span
  parent : Option NodeId := none
  previous : Option NodeId := none
  next : Option NodeId := none
  children : List NodeId := []
  deriving Repr, Inhabited

/-- The nodes read from one text. -/
structure Tree where
  dialect : Dialect
  nodes : Array Node := #[]
  deriving Repr, Inhabited

namespace Tree

/-- The number of nodes. -/
def size (t : Tree) : Nat := t.nodes.size

def node? (t : Tree) (id : NodeId) : Option Node := t.nodes[id]?

def kind? (t : Tree) (id : NodeId) : Option NodeKind := (t.node? id).map (·.kind)

def span (t : Tree) (id : NodeId) : Span := ((t.node? id).map (·.span)).getD ⟨0, 0⟩

def children (t : Tree) (id : NodeId) : List NodeId := ((t.node? id).map (·.children)).getD []

def parent? (t : Tree) (id : NodeId) : Option NodeId := (t.node? id).bind (·.parent)

def previous? (t : Tree) (id : NodeId) : Option NodeId := (t.node? id).bind (·.previous)

def next? (t : Tree) (id : NodeId) : Option NodeId := (t.node? id).bind (·.next)

/-- Makes the nodes of a list children of `parent`, the first of them a neighbour of `previous`. -/
def link (parent : NodeId) : Option NodeId → List NodeId → Array Node → Array Node
  | _, [], nodes => nodes
  | previous, child :: rest, nodes =>
    let nodes := nodes.modify child fun n => { n with parent := some parent, previous := previous }
    let nodes := match previous with
      | some p => nodes.modify p fun n => { n with next := some child }
      | none => nodes
    link parent (some child) rest nodes

/-- Adds a node above its children. -/
def push (t : Tree) (kind : NodeKind) (span : Span) (children : List NodeId) : Tree :=
  { t with nodes := link t.size none children (t.nodes.push { kind, span, children }) }

/-- The nodes below a node, each before the nodes below it; `fuel` bounds the depth. -/
def below (t : Tree) : Nat → NodeId → List NodeId
  | 0, _ => []
  | fuel + 1, id => (t.children id).flatMap fun child => child :: t.below fuel child

/-- The nodes below a node that satisfy `p`, in the order of the text. -/
def descendants (t : Tree) (id : NodeId) (p : NodeKind → Bool) : List NodeId :=
  (t.below (t.size + 1) id).filter fun d => (t.kind? d).any p

theorem size_link (parent : NodeId) (previous : Option NodeId) (children : List NodeId)
    (nodes : Array Node) : (link parent previous children nodes).size = nodes.size := by
  induction children generalizing previous nodes with
  | nil => rfl
  | cons child rest ih =>
    cases previous <;> simp [link, ih]

/-- Adding a node adds one index. -/
@[simp] theorem size_push (t : Tree) (kind : NodeKind) (span : Span) (children : List NodeId) :
    (t.push kind span children).size = t.size + 1 := by
  simp [push, size, size_link]

end Tree

end ModelText.Template
