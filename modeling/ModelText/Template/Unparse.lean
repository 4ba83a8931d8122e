import ModelText.Template.Tree

/-!
# Writing templates

The text of a node, written in the dialect of its tree. Reading it gives a tree of the same shape,
but for the white space that reading drops around tags that stand alone on their lines.
-/

namespace ModelText.Template.Tree

/-- The text of a call, from the texts of its arguments and of its filter. -/
def callText (qualifier : Option Qualifier) (name : String) (args : List String)
    (filter : Option String) : String :=
  (match qualifier with
    | some q => q.word ++ "::"
    | none => "") ++
  name ++
  (if args.isEmpty then "" else "(" ++ String.intercalate ", " args ++ ")") ++
  (match filter with
    | some f => "[" ++ f ++ "]"
    | none => "")

/-- The header and the body of one branch: `keyword (condition)` and the statements. -/
def branchText (tags : Tags) (opener condition body : String) : String :=
  opener ++ " (" ++ condition ++ ")" ++ tags.blockOpener ++ body

/-- The text of a node; `fuel` bounds the depth. -/
def textOf (t : Tree) : Nat → NodeId → String
  | 0, _ => ""
  | fuel + 1, id =>
    let tags := t.dialect.tags
    match t.kind? id with
    | none => ""
    | some .template => String.join ((t.children id).map (t.textOf fuel))
    | some (.text content) => content
    | some (.comment content) => tags.commentOpener ++ content ++ tags.commentCloser
    | some (.feature expression) => tags.opener ++ t.textOf fuel expression ++ tags.closer
    | some (.forLoop iterator body) =>
      branchText tags tags.forOpener (t.textOf fuel iterator) (t.textOf fuel body) ++
        tags.blockCloser
    | some (.ifElse condition body elseIfs otherwise) =>
      branchText tags tags.ifOpener (t.textOf fuel condition) (t.textOf fuel body) ++
      String.join (elseIfs.map fun (c, b) =>
        branchText tags (tags.elseOpener ++ " if") (t.textOf fuel c) (t.textOf fuel b)) ++
      (match otherwise with
        | some b => tags.elseOpener ++ tags.blockOpener ++ t.textOf fuel b
        | none => "") ++
      tags.blockCloser
    | some (.literal value) => value.write
    | some (.negation operand) => "!" ++ t.textOf fuel operand
    | some (.operation operator operands) =>
      String.intercalate (" " ++ operator.symbol ++ " ") (operands.map (t.textOf fuel))
    | some (.parenthesis inner) => "(" ++ t.textOf fuel inner ++ ")"
    | some (.call qualifier name filter args) =>
      callText qualifier name (args.map (t.textOf fuel)) (filter.map (t.textOf fuel))
    | some (.chain calls) => String.intercalate "." (calls.map (t.textOf fuel))

/-- The text of a node. References point to smaller indices, so no path is longer than the tree. -/
def unparse (t : Tree) (id : NodeId) : String := t.textOf (t.size + 1) id

end ModelText.Template.Tree
