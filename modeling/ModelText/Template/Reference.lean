import ModelText.Template.Tree

/-!
# References to template nodes

Nodes of all loaded files, as the targets of traces. They are ordered by file and then by node.
-/

namespace ModelText.Template

/-- The index of a loaded file. -/
abbrev FileId := Nat

/-- A node of a loaded file. -/
structure NodeRef where
  file : FileId
  node : NodeId
  deriving DecidableEq, Repr, Inhabited, Ord

end ModelText.Template
