import ModelText.Source.Search
import ModelText.Text.Blank

/-!
# Template dialects

Two families of delimiters: angle templates write `<%` and `%>`, bracket templates `[%` and `%]`.
The first character of a template that is not white space decides which one it uses.
-/

namespace ModelText

/-- The delimiter family of a template. -/
inductive Dialect where
  | angle
  | bracket
  deriving DecidableEq, Repr, Inhabited

/-- Every delimiter of a dialect. -/
structure Tags where
  opener : String
  closer : String
  commentOpener : String
  commentCloser : String
  ifOpener : String
  forOpener : String
  elseOpener : String
  /-- Ends the header of a block. -/
  blockOpener : String
  /-- Ends a block. -/
  blockCloser : String
  scriptOpener : String
  importOpener : String
  metamodelOpener : String

namespace Dialect

/-- The dialect of a template, told by its first character that is not white space. -/
def detect (text : String) : Dialect :=
  match text.toList.dropWhile Text.isBlank with
  | '[' :: _ => .bracket
  | _ => .angle

/-- The delimiters of a dialect. -/
def tags : Dialect → Tags
  | .angle =>
    { opener := "<%", closer := "%>"
      commentOpener := "<%--", commentCloser := "--%>"
      ifOpener := "<%if", forOpener := "<%for", elseOpener := "<%\x7delse"
      blockOpener := "\x7b%>", blockCloser := "<%\x7d%>"
      scriptOpener := "<%script", importOpener := "<%import"
      metamodelOpener := "<%metamodel" }
  | .bracket =>
    { opener := "[%", closer := "%]"
      commentOpener := "[%--", commentCloser := "--%]"
      ifOpener := "[%if", forOpener := "[%for", elseOpener := "[%\x7delse"
      blockOpener := "\x7b%]", blockCloser := "[%\x7d%]"
      scriptOpener := "[%script", importOpener := "[%import"
      metamodelOpener := "[%metamodel" }

end Dialect

/-- String literals. -/
def Inhibitor.literal : Inhibitor := ⟨"\"", "\"", .quoted⟩

namespace Tags

/-- What is skipped when looking for the end of a tag: string literals. -/
def inTag (_ : Tags) : List Inhibitor := [.literal]

/-- What is skipped inside an expression: string literals, arguments and filters. -/
def inExpression (_ : Tags) : List Inhibitor :=
  [.literal, ⟨"(", ")", .nested⟩, ⟨"[", "]", .nested⟩]

/-- The comments of the dialect. -/
def comment (t : Tags) : Inhibitor := ⟨t.commentOpener, t.commentCloser, .flat⟩

/-- What is skipped across the statements of a body: comments, nested blocks and other tags. -/
def inBody (t : Tags) : List Inhibitor :=
  [t.comment, ⟨t.ifOpener, t.blockCloser, .nested⟩, ⟨t.forOpener, t.blockCloser, .nested⟩,
    ⟨t.opener, t.closer, .tag⟩]

end Tags

end ModelText
