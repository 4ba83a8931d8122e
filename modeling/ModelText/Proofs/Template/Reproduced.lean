import ModelText.Proofs.Template.Unparsed

/-!
# Printed expressions are reproduced

An expression whose operands bind as tightly as their operators ask for is read back from its text as it was,
literals included: integers, strings, booleans and `null` always, and doubles as far as their texts are exact.
-/

namespace ModelText.Template

namespace Expr

/-- A double that is read back from its text, a call that is no word of a literal, or an expression of another
form. -/
def Exact : Expr → Prop
  | .literal (.double x) => Literal.read? (Literal.doubleText x) = some (.double x)
  | .call none name none [] => name ∉ Literal.words
  | _ => True

theorem recovers_of_exact {e : Expr} (h : e.Exact) : e.Recovers (· = ·) := by
  unfold Recovers
  split
  · next value =>
    refine ⟨value, ?_, rfl⟩
    by_cases hdouble : ∃ x, value = .double x
    · obtain ⟨x, rfl⟩ := hdouble
      exact h
    · exact Literal.read?_write fun x hx => hdouble ⟨x, hx⟩
  · exact h
  · trivial

end Expr

/-- The text of an expression is read as exactly that expression: when calls have names, and chains two calls
at least, when operands bind as tightly as their operators ask for, and when doubles have exact texts. -/
theorem readText_reproduces {t : Tree} {id : NodeId} {e : Expr} (h : t.StandsFor (· = ·) e id)
    (hmade : e.All Expr.WellMade) (hgrouped : e.All Expr.Grouped) (hexact : e.All Expr.Exact)
    (dialect : Dialect) :
    ∃ id' d', readText dialect (t.unparse id) = (.ok id', d') ∧ d'.tree.StandsFor (· = ·) e id' := by
  obtain ⟨kind, hkind⟩ := Tree.exists_kind_of_standsFor h
  have hunparse : t.unparse id = e.write :=
    Tree.textOf_of_showsExpr (Tree.showsExpr_of_standsFor h) (Nat.lt_succ_of_lt (Tree.lt_size_of_kind? hkind))
  obtain ⟨id', d', hread, hstands⟩ :=
    @readText_write (· = ·) dialect e hmade (hexact.imp fun _ => Expr.recovers_of_exact)
  rw [Expr.expr_row hgrouped] at hstands
  exact ⟨id', d', hunparse ▸ hread, hstands⟩

/-- A negated call less a negative number, plus a call with a filter and a string full of delimiters. -/
def mixedSum : Expr :=
  .operation .add [.operation .subtract [.negation (.call none "x" none []), .literal (.int (-2))],
    .call (some .service) "sep" (some (.literal (.bool true))) [.literal (.text "\" - (")]]

/-- A row of different operators of a level is read back with its first operands together. -/
theorem readText_reproduces_mixedSum :
    let t := (((((((({ dialect := .bracket } : Tree).push (.call none "x" none []) ⟨1, 2⟩ []).push
      (.negation 0) ⟨0, 2⟩ [0]).push (.literal (.int (-2))) ⟨5, 7⟩ []).push
      (.operation .subtract [1, 2]) ⟨0, 7⟩ [1, 2]).push (.literal (.text "\" - (")) ⟨23, 31⟩ []).push
      (.literal (.bool true)) ⟨33, 37⟩ []).push (.call (some .service) "sep" (some 5) [4]) ⟨10, 38⟩ [4, 5]).push
      (.operation .add [3, 6]) ⟨0, 38⟩ [3, 6]
    t.StandsFor (· = ·) mixedSum 7 ∧ mixedSum.write = "!x - -2 + service::sep(\"\\\" - (\")[true]" ∧
      mixedSum.All Expr.WellMade ∧ mixedSum.All Expr.Grouped ∧ mixedSum.All Expr.Exact ∧
      ∃ id' d', readText .bracket (t.unparse 7) = (.ok id', d') ∧ d'.tree.StandsFor (· = ·) mixedSum id' := by
  intro t
  have hstands : t.StandsFor (· = ·) mixedSum 7 := by
    refine ⟨[3, 6], rfl, 3, by decide, [6], rfl, ?_, 6, by decide, [], rfl, ?_, rfl⟩
    · refine ⟨[1, 2], rfl, 1, by decide, [2], rfl, ?_, 2, by decide, [], rfl, ⟨.int (-2), rfl, rfl⟩, rfl⟩
      exact ⟨0, by decide, rfl, none, [], rfl, rfl, rfl⟩
    · refine ⟨some 5, [4], rfl, ⟨5, by decide, rfl, .bool true, rfl, rfl⟩, 4, by decide, [], rfl, ?_, rfl⟩
      exact ⟨.text "\" - (", rfl, rfl⟩
  have hmade : mixedSum.All Expr.WellMade := by
    have hname : Input.IsCallName "x" ∧ Input.IsCallName "sep" := by
      constructor <;> exact ⟨rfl, by decide⟩
    refine ⟨by simp [Expr.WellMade], ⟨by simp [Expr.WellMade], ⟨trivial, hname.1, trivial, trivial⟩, trivial, trivial⟩, ?_⟩
    exact ⟨⟨hname.2, trivial, trivial, trivial⟩, trivial⟩
  have hgrouped : mixedSum.All Expr.Grouped := by
    refine ⟨⟨by decide, .inr ⟨_, _, rfl, ⟨by decide, .inl (by decide)⟩, by decide⟩⟩, ⟨⟨by decide, .inl ?_⟩,
      ⟨rfl, trivial, trivial, trivial⟩, trivial, trivial⟩, ⟨trivial, trivial, trivial, trivial⟩, trivial⟩
    intro e he
    simp only [List.mem_cons, List.not_mem_nil, or_false] at he
    rcases he with rfl | rfl <;> decide
  have hexact : mixedSum.All Expr.Exact := by
    refine ⟨trivial, ⟨trivial, ⟨trivial, ?_, trivial, trivial⟩, trivial, trivial⟩, ⟨trivial, trivial, trivial, trivial⟩,
      trivial⟩
    show "x" ∉ Literal.words
    decide
  exact ⟨hstands, by decide +kernel, hmade, hgrouped, hexact,
    readText_reproduces hstands hmade hgrouped hexact .bracket⟩

end ModelText.Template
