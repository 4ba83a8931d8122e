import ModelText.Proofs.Template.Sorted
import ModelText.Template.Document

/-!
# Syntax without places

What a tree says when its indices, spans and links are left aside: expressions, statements and bodies
as inductive types, the text that each is written as, and the nodes of a tree that show it. Two trees
have the same shape when they show the same body. A double is shown by what it is written as.
-/

namespace ModelText.Template

/-- An expression. -/
inductive Expr where
  | literal (value : Literal)
  | negation (operand : Expr)
  | operation (operator : Operator) (operands : List Expr)
  | parenthesis (inner : Expr)
  | call (qualifier : Option Qualifier) (name : String) (filter : Option Expr) (args : List Expr)
  | chain (calls : List Expr)
  deriving Inhabited

mutual

/-- A statement. -/
inductive Stmt where
  | text (content : String)
  | comment (content : String)
  | feature (expression : Expr)
  | loop (iterator : Expr) (body : Body)
  | branch (condition : Expr) (body : Body) (rest : Branches)

/-- The statements of a script or of a block. -/
inductive Body where
  | nil
  | cons (first : Stmt) (rest : Body)

/-- What stands behind the first body of a conditional block: any number of branches with a condition
and at most one without. -/
inductive Branches where
  | done
  | otherwise (body : Body)
  | elseIf (condition : Expr) (body : Body) (rest : Branches)

end

/-! ## Written forms -/

mutual

/-- The text of an expression. -/
def Expr.write : Expr → String
  | .literal value => value.write
  | .negation operand => "!" ++ operand.write
  | .operation operator operands =>
    String.intercalate (" " ++ operator.symbol ++ " ") (Expr.writeAll operands)
  | .parenthesis inner => "(" ++ inner.write ++ ")"
  | .call qualifier name filter args =>
    Tree.callText qualifier name (Expr.writeAll args) (Expr.writeFilter filter)
  | .chain calls => String.intercalate "." (Expr.writeAll calls)

def Expr.writeAll : List Expr → List String
  | [] => []
  | e :: rest => e.write :: Expr.writeAll rest

def Expr.writeFilter : Option Expr → Option String
  | none => none
  | some e => some e.write

end

mutual

/-- The text of a statement. -/
def Stmt.write (tags : Tags) : Stmt → String
  | .text content => content
  | .comment content => tags.commentOpener ++ content ++ tags.commentCloser
  | .feature expression => tags.opener ++ expression.write ++ tags.closer
  | .loop iterator body =>
    Tree.branchText tags tags.forOpener iterator.write (body.write tags) ++ tags.blockCloser
  | .branch condition body rest =>
    Tree.branchText tags tags.ifOpener condition.write (body.write tags) ++ rest.write tags ++
      tags.blockCloser

/-- The text of a body. -/
def Body.write (tags : Tags) : Body → String
  | .nil => ""
  | .cons first rest => first.write tags ++ rest.write tags

/-- The text of the branches behind the first. -/
def Branches.write (tags : Tags) : Branches → String
  | .done => ""
  | .otherwise body => tags.elseOpener ++ tags.blockOpener ++ body.write tags
  | .elseIf condition body rest =>
    Tree.branchText tags (tags.elseOpener ++ " if") condition.write (body.write tags) ++
      rest.write tags

end

/-! ## The nodes of a tree -/

namespace Tree

variable (t : Tree)

mutual

/-- The node shows an expression, through nodes with smaller indices. -/
def ShowsExpr : Expr → NodeId → Prop
  | .literal value, id => ∃ own, t.kind? id = some (.literal own) ∧ own.write = value.write
  | .negation e, id => ∃ i < id, t.kind? id = some (.negation i) ∧ ShowsExpr e i
  | .operation operator es, id =>
    ∃ is, t.kind? id = some (.operation operator is) ∧ ShowsExprs es is id
  | .parenthesis e, id => ∃ i < id, t.kind? id = some (.parenthesis i) ∧ ShowsExpr e i
  | .call qualifier name f es, id =>
    ∃ g is, t.kind? id = some (.call qualifier name g is) ∧ ShowsFilter f g id ∧ ShowsExprs es is id
  | .chain es, id => ∃ is, t.kind? id = some (.chain is) ∧ ShowsExprs es is id

/-- The nodes of a list, all below a bound, show the expressions of another one. -/
def ShowsExprs : List Expr → List NodeId → NodeId → Prop
  | [], is, _ => is = []
  | e :: es, is, bound => ∃ i < bound, ∃ js, is = i :: js ∧ ShowsExpr e i ∧ ShowsExprs es js bound

def ShowsFilter : Option Expr → Option NodeId → NodeId → Prop
  | none, g, _ => g = none
  | some e, g, bound => ∃ i < bound, g = some i ∧ ShowsExpr e i

end

mutual

/-- The node shows a statement. -/
def ShowsStmt : Stmt → NodeId → Prop
  | .text content, id => t.kind? id = some (.text content)
  | .comment content, id => t.kind? id = some (.comment content)
  | .feature e, id => ∃ i < id, t.kind? id = some (.feature i) ∧ t.ShowsExpr e i
  | .loop iterator body, id =>
    ∃ i < id, ∃ b < id, t.kind? id = some (.forLoop i b) ∧ t.ShowsExpr iterator i ∧
      t.kind? b = some .template ∧ ShowsStmts body (t.children b) b
  | .branch condition body rest, id =>
    ∃ c < id, ∃ b < id, ∃ elseIfs otherwise,
      t.kind? id = some (.ifElse c b elseIfs otherwise) ∧ t.ShowsExpr condition c ∧
      t.kind? b = some .template ∧ ShowsStmts body (t.children b) b ∧
      ShowsBranches rest elseIfs otherwise id

/-- The nodes of a list, all below a bound, show the statements of a body. -/
def ShowsStmts : Body → List NodeId → NodeId → Prop
  | .nil, is, _ => is = []
  | .cons first rest, is, bound =>
    ∃ i < bound, ∃ js, is = i :: js ∧ ShowsStmt first i ∧ ShowsStmts rest js bound

/-- The parts of a conditional block, all below a bound, show its branches. -/
def ShowsBranches : Branches → List (NodeId × NodeId) → Option NodeId → NodeId → Prop
  | .done, elseIfs, otherwise, _ => elseIfs = [] ∧ otherwise = none
  | .otherwise body, elseIfs, otherwise, bound =>
    ∃ b < bound, elseIfs = [] ∧ otherwise = some b ∧ t.kind? b = some .template ∧
      ShowsStmts body (t.children b) b
  | .elseIf condition body rest, elseIfs, otherwise, bound =>
    ∃ c < bound, ∃ b < bound, ∃ more, elseIfs = (c, b) :: more ∧ t.ShowsExpr condition c ∧
      t.kind? b = some .template ∧ ShowsStmts body (t.children b) b ∧
      ShowsBranches rest more otherwise bound

end

/-- The node shows a body: its children are the statements. -/
def ShowsBody (body : Body) (id : NodeId) : Prop :=
  t.kind? id = some .template ∧ t.ShowsStmts body (t.children id) id

variable {t}

theorem exists_kind_of_showsExpr {e : Expr} {id : NodeId} (h : t.ShowsExpr e id) :
    ∃ kind, t.kind? id = some kind := by
  cases e with
  | literal value => exact ⟨_, h.choose_spec.1⟩
  | negation e => exact ⟨_, h.choose_spec.2.1⟩
  | operation operator es => exact ⟨_, h.choose_spec.1⟩
  | parenthesis e => exact ⟨_, h.choose_spec.2.1⟩
  | call qualifier name f es => exact ⟨_, h.choose_spec.choose_spec.1⟩
  | chain es => exact ⟨_, h.choose_spec.1⟩

/-! ## What is written -/

mutual

theorem textOf_of_showsExpr {e : Expr} {id fuel : Nat} (h : t.ShowsExpr e id) (hfuel : id < fuel) :
    t.textOf fuel id = e.write := by
  obtain ⟨fuel, rfl⟩ : ∃ n, fuel = n + 1 := ⟨fuel - 1, by omega⟩
  have hle : id ≤ fuel := Nat.le_of_lt_succ hfuel
  match e with
  | .literal value =>
    obtain ⟨own, hkind, hwrite⟩ := h
    simp only [textOf, hkind, Expr.write, hwrite]
  | .negation e =>
    obtain ⟨i, hi, hkind, he⟩ := h
    simp only [textOf, hkind, Expr.write, textOf_of_showsExpr he (Nat.lt_of_lt_of_le hi hle)]
  | .operation operator es =>
    obtain ⟨is, hkind, hes⟩ := h
    simp only [textOf, hkind, Expr.write, map_textOf_of_showsExprs hes hle]
  | .parenthesis e =>
    obtain ⟨i, hi, hkind, he⟩ := h
    simp only [textOf, hkind, Expr.write, textOf_of_showsExpr he (Nat.lt_of_lt_of_le hi hle)]
  | .call qualifier name f es =>
    obtain ⟨g, is, hkind, hf, hes⟩ := h
    simp only [textOf, hkind, Expr.write, map_textOf_of_showsExprs hes hle,
      map_textOf_of_showsFilter hf hle]
  | .chain es =>
    obtain ⟨is, hkind, hes⟩ := h
    simp only [textOf, hkind, Expr.write, map_textOf_of_showsExprs hes hle]

theorem map_textOf_of_showsExprs {es : List Expr} {is : List NodeId} {bound fuel : Nat}
    (h : t.ShowsExprs es is bound) (hfuel : bound ≤ fuel) :
    is.map (t.textOf fuel) = Expr.writeAll es := by
  match es with
  | [] =>
    cases h
    rfl
  | e :: es =>
    obtain ⟨i, hi, js, rfl, he, hes⟩ := h
    rw [List.map_cons, textOf_of_showsExpr he (Nat.lt_of_lt_of_le hi hfuel), map_textOf_of_showsExprs hes hfuel,
      Expr.writeAll]

theorem map_textOf_of_showsFilter {f : Option Expr} {g : Option NodeId} {bound fuel : Nat}
    (h : t.ShowsFilter f g bound) (hfuel : bound ≤ fuel) :
    g.map (t.textOf fuel) = Expr.writeFilter f := by
  match f with
  | none =>
    cases h
    rfl
  | some e =>
    obtain ⟨i, hi, rfl, he⟩ := h
    rw [Option.map_some, textOf_of_showsExpr he (Nat.lt_of_lt_of_le hi hfuel), Expr.writeFilter]

end

mutual

theorem textOf_of_showsStmt {s : Stmt} {id fuel : Nat} (h : t.ShowsStmt s id) (hfuel : id < fuel) :
    t.textOf fuel id = s.write t.dialect.tags := by
  obtain ⟨fuel, rfl⟩ : ∃ n, fuel = n + 1 := ⟨fuel - 1, by omega⟩
  have hle : id ≤ fuel := Nat.le_of_lt_succ hfuel
  match s with
  | .text content =>
    have hkind : t.kind? id = some (.text content) := h
    simp only [textOf, hkind, Stmt.write]
  | .comment content =>
    have hkind : t.kind? id = some (.comment content) := h
    simp only [textOf, hkind, Stmt.write]
  | .feature e =>
    obtain ⟨i, hi, hkind, he⟩ := h
    simp only [textOf, hkind, Stmt.write, textOf_of_showsExpr he (Nat.lt_of_lt_of_le hi hle)]
  | .loop iterator body =>
    obtain ⟨i, hi, b, hb, hkind, he, hbody⟩ := h
    simp only [textOf, hkind, Stmt.write, textOf_of_showsExpr he (Nat.lt_of_lt_of_le hi hle),
      textOf_of_showsStmts hbody.1 hbody.2 (Nat.lt_of_lt_of_le hb hle)]
  | .branch condition body rest =>
    obtain ⟨c, hc, b, hb, elseIfs, otherwise, hkind, he, htemplate, hbody, hrest⟩ := h
    have hrest := textOf_of_showsBranches hle hrest
    simp only [textOf, hkind, Stmt.write, textOf_of_showsExpr he (Nat.lt_of_lt_of_le hc hle),
      textOf_of_showsStmts htemplate hbody (Nat.lt_of_lt_of_le hb hle)]
    refine congrArg (· ++ t.dialect.tags.blockCloser) ?_
    rw [String.append_assoc]
    exact congrArg (branchText _ _ _ _ ++ ·) hrest

theorem textOf_of_showsStmts {body : Body} {id fuel : Nat} (hkind : t.kind? id = some .template)
    (h : t.ShowsStmts body (t.children id) id) (hfuel : id < fuel) :
    t.textOf fuel id = body.write t.dialect.tags := by
  obtain ⟨fuel, rfl⟩ : ∃ n, fuel = n + 1 := ⟨fuel - 1, by omega⟩
  have hle : id ≤ fuel := Nat.le_of_lt_succ hfuel
  simp only [textOf, hkind]
  exact join_textOf_of_showsStmts h hle

theorem join_textOf_of_showsStmts {body : Body} {is : List NodeId} {bound fuel : Nat}
    (h : t.ShowsStmts body is bound) (hfuel : bound ≤ fuel) :
    String.join (is.map (t.textOf fuel)) = body.write t.dialect.tags := by
  match body with
  | .nil =>
    cases h
    rfl
  | .cons first rest =>
    obtain ⟨i, hi, js, rfl, hfirst, hrest⟩ := h
    rw [List.map_cons, String.join_cons, textOf_of_showsStmt hfirst (Nat.lt_of_lt_of_le hi hfuel),
      join_textOf_of_showsStmts hrest hfuel, Body.write]

theorem textOf_of_showsBranches {rest : Branches} {elseIfs : List (NodeId × NodeId)}
    {otherwise : Option NodeId} {bound fuel : Nat} (hfuel : bound ≤ fuel) :
    t.ShowsBranches rest elseIfs otherwise bound →
    String.join (elseIfs.map fun (c, b) =>
        branchText t.dialect.tags (t.dialect.tags.elseOpener ++ " if") (t.textOf fuel c)
          (t.textOf fuel b)) ++
      (match otherwise with
        | some b => t.dialect.tags.elseOpener ++ t.dialect.tags.blockOpener ++ t.textOf fuel b
        | none => "") =
      rest.write t.dialect.tags := by
  intro h
  match rest with
  | .done =>
    obtain ⟨rfl, rfl⟩ := h
    rfl
  | .otherwise body =>
    obtain ⟨b, hb, rfl, rfl, hkind, hbody⟩ := h
    simp only [List.map_nil, String.join_nil, Branches.write,
      textOf_of_showsStmts hkind hbody (Nat.lt_of_lt_of_le hb hfuel), String.empty_append]
  | .elseIf condition body rest =>
    obtain ⟨c, hc, b, hb, more, rfl, he, hkind, hbody, hrest⟩ := h
    rw [List.map_cons, String.join_cons, Branches.write, String.append_assoc,
      textOf_of_showsBranches hfuel hrest]
    dsimp only
    rw [textOf_of_showsExpr he (Nat.lt_of_lt_of_le hc hfuel),
      textOf_of_showsStmts hkind hbody (Nat.lt_of_lt_of_le hb hfuel)]

end

/-- A tree is written as the body that it shows. -/
theorem unparse_of_showsBody {body : Body} {id : NodeId} (h : t.ShowsBody body id) :
    t.unparse id = body.write t.dialect.tags :=
  textOf_of_showsStmts h.1 h.2 (Nat.lt_succ_of_lt (t.lt_size_of_kind? h.1))

end Tree

end ModelText.Template
