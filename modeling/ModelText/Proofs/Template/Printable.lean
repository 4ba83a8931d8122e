import ModelText.Proofs.Source.OneLine
import ModelText.Proofs.Template.Headers
import ModelText.Proofs.Template.Syntax

/-!
# Printable bodies

The conditions under which the text of a body reads back as the body, and that text as a list of
characters, from tag to tag.
-/

namespace ModelText.Template

open Text (byteCount)

/-! ## Conditions -/

/-- A text in which no tag opens, on one line, that is not blank. -/
structure IsPlainText (cs : List Char) : Prop where
  untagged : ¬ "<%".toList <:+: cs
  oneLine : '\n' ∉ cs
  visible : ∃ c ∈ cs, isLineSpace c = false

/-- A comment on one line that closes at its end only. -/
structure IsCommentText (cs : List Char) : Prop where
  unclosed : ¬ "--%>".toList <:+: cs
  oneLine : '\n' ∉ cs

def Stmt.IsText : Stmt → Prop
  | .text _ => True
  | _ => False

def Body.BeginsWithText : Body → Prop
  | .nil => False
  | .cons first _ => first.IsText

mutual

/-- A statement whose text reads back as the statement. -/
def Stmt.Printable : Stmt → Prop
  | .text content => IsPlainText content.toList
  | .comment content => IsCommentText content.toList
  | .feature expression => expression.Printable
  | .loop iterator body => iterator.Printable ∧ body.Printable
  | .branch condition body rest => condition.Printable ∧ body.Printable ∧ rest.Printable

/-- Printable statements, and no two texts next to each other. -/
def Body.Printable : Body → Prop
  | .nil => True
  | .cons first rest =>
    first.Printable ∧ (first.IsText → ¬ rest.BeginsWithText) ∧ rest.Printable

def Branches.Printable : Branches → Prop
  | .done => True
  | .otherwise body => body.Printable
  | .elseIf condition body rest => condition.Printable ∧ body.Printable ∧ rest.Printable

end

/-- A statement outside of all blocks whose text reads back as the statement: the literals in its own tag may
hold any text, unless the tag begins another branch. -/
def Stmt.Legible : Stmt → Prop
  | .text content => IsPlainText content.toList
  | .comment content => IsCommentText content.toList
  | .feature expression => expression.Legible
  | .loop iterator body => iterator.Legible ∧ body.Printable
  | .branch condition body rest => condition.Legible ∧ body.Printable ∧ rest.Printable

/-- Legible statements, and no two texts next to each other. -/
def Body.Legible : Body → Prop
  | .nil => True
  | .cons first rest => first.Legible ∧ (first.IsText → ¬ rest.BeginsWithText) ∧ rest.Legible

theorem Stmt.Printable.legible {s : Stmt} (h : s.Printable) : s.Legible := by
  cases s with
  | text _ | comment _ => exact h
  | feature e => exact Expr.Printable.legible h
  | loop iterator body => exact ⟨h.1.legible, h.2⟩
  | branch condition body rest => exact ⟨h.1.legible, h.2⟩

theorem Body.Printable.legible {b : Body} (h : b.Printable) : b.Legible := by
  match b with
  | .nil => trivial
  | .cons first rest => exact ⟨h.1.legible, h.2.1, Body.Printable.legible h.2.2⟩

/-! ## Characters -/

/-- The characters of a statement. -/
def Stmt.chars (s : Stmt) : List Char := (s.write Dialect.angle.tags).toList

def Body.chars (b : Body) : List Char := (b.write Dialect.angle.tags).toList

def Branches.chars (b : Branches) : List Char := (b.write Dialect.angle.tags).toList

/-- The header of a block behind its keyword. -/
def Expr.header (e : Expr) : List Char := ' ' :: ('(' :: e.write.toList ++ ')' :: "\x7b%>".toList)

theorem Expr.header_append (e : Expr) (rest : List Char) :
    e.header ++ rest = ' ' :: ('(' :: e.write.toList ++ ')' :: ("\x7b%>".toList ++ rest)) := by
  simp [header]

theorem Expr.byteCount_header (e : Expr) : byteCount e.header = byteCount e.write.toList + 6 := by
  have hround : byteCount [' ', '('] = 2 ∧ byteCount (')' :: "\x7b%>".toList) = 4 := by decide
  have hheader : e.header = [' ', '('] ++ (e.write.toList ++ ')' :: "\x7b%>".toList) := rfl
  rw [hheader, Text.byteCount_append, Text.byteCount_append]
  omega

section Chars

variable (content : String) (e : Expr) (s : Stmt) (b : Body) (rest : Branches)

theorem toList_branchText (keyword body : String) :
    (Tree.branchText Dialect.angle.tags keyword e.write body).toList =
      keyword.toList ++ (e.header ++ body.toList) := by
  simp only [Tree.branchText, String.toList_append, Expr.header_append, List.append_assoc]
  rfl

theorem Stmt.chars_text : (Stmt.text content).chars = content.toList := rfl

theorem Stmt.chars_comment :
    (Stmt.comment content).chars = "<%--".toList ++ (content.toList ++ "--%>".toList) := by
  rw [chars, write, String.toList_append, String.toList_append, List.append_assoc]
  rfl

theorem Stmt.chars_feature :
    (Stmt.feature e).chars = "<%".toList ++ (e.write.toList ++ "%>".toList) := by
  rw [chars, write, String.toList_append, String.toList_append, List.append_assoc]
  rfl

theorem Stmt.chars_loop :
    (Stmt.loop e b).chars = "<%for".toList ++ (e.header ++ b.chars ++ "<%\x7d%>".toList) := by
  rw [chars, write, String.toList_append, toList_branchText, List.append_assoc]
  rfl

theorem Stmt.chars_branch :
    (Stmt.branch e b rest).chars =
      "<%if".toList ++ (e.header ++ (b.chars ++ rest.chars) ++ "<%\x7d%>".toList) := by
  rw [chars, write, String.toList_append, String.toList_append, toList_branchText]
  simp only [List.append_assoc]
  rfl

theorem Body.chars_nil : Body.nil.chars = [] := rfl

theorem Body.chars_cons : (Body.cons s b).chars = s.chars ++ b.chars := by
  rw [chars, write, String.toList_append]
  rfl

theorem Branches.chars_done : Branches.done.chars = [] := rfl

theorem Branches.chars_otherwise :
    (Branches.otherwise b).chars = "<%\x7delse\x7b%>".toList ++ b.chars := by
  rw [chars, write, String.toList_append]
  rfl

theorem Branches.chars_elseIf :
    (Branches.elseIf e b rest).chars =
      "<%\x7delse if".toList ++ (e.header ++ (b.chars ++ rest.chars)) := by
  rw [chars, write, String.toList_append, toList_branchText]
  simp only [List.append_assoc]
  rfl

end Chars

end ModelText.Template
