import ModelText.Proofs.Template.Rows
import ModelText.Proofs.Template.Spelling

/-!
# Expressions and their rows

The row that an expression is written as may be read as another expression. It is the same one exactly when
each operand binds as tightly as its operator asks for.
-/

namespace ModelText.Template

/-! ## What a row is read as -/

/-- An operand: how it is written, and what it is read as. -/
structure Operand where
  chars : List Char
  expr : Expr

namespace Row

/-- The text of a row. -/
def chars (r : Row Operand) : List Char :=
  r.first.chars ++ r.rest.flatMap fun x => ' ' :: (x.1.symbol.toList ++ ' ' :: x.2.chars)

/-- The expression that a row is read as. -/
def expr (r : Row Operand) : Expr :=
  match _h : r.split? with
  | none => r.first.expr
  | some (operator, parts) => .operation operator (parts.attach.map fun s => s.1.expr)
termination_by r.rest.length
decreasing_by exact (split?_eq_some.mp _h).length_lt s.1 s.2

theorem expr_of_rest {r : Row Operand} (h : r.rest = []) : r.expr = r.first.expr := by
  rw [expr]
  split
  · rfl
  · next _ hsplit =>
    rw [split?_eq_none.mpr h] at hsplit
    cases hsplit

theorem Split.expr_eq {r : Row Operand} {operator : Operator} {parts : List (Row Operand)}
    (h : Split r operator parts) : r.expr = .operation operator (parts.map expr) := by
  rw [expr]
  split
  · next hnone =>
    rw [split?_eq_some.mpr h] at hnone
    cases hnone
  · next hsplit =>
    rw [split?_eq_some.mpr h] at hsplit
    cases hsplit
    simp

/-- The operand in front behind an exclamation mark. -/
def negated (r : Row Operand) : Row Operand :=
  ⟨⟨'!' :: r.first.chars, .negation r.first.expr⟩, r.rest⟩

/-- Any number of rows with an operator between them. -/
def joinAll (operator : Operator) : List (Row Operand) → Row Operand
  | [] => one ⟨[], .literal .null⟩
  | r :: rows => join operator r rows

end Row

namespace Expr

mutual

/-- The operands of an expression that no parentheses enclose, as they are read from its text. -/
def row : Expr → Row Operand
  | .literal value => .one ⟨(Expr.literal value).write.toList, .literal value⟩
  | .negation e => e.row.negated
  | .operation operator es => .joinAll operator (rows es)
  | .parenthesis e => .one ⟨(Expr.parenthesis e).write.toList, .parenthesis e.row.expr⟩
  | .call qualifier name f args =>
    .one ⟨(Expr.call qualifier name f args).write.toList,
      .call qualifier name ((row? f).map Row.expr) ((rows args).map Row.expr)⟩
  | .chain calls =>
    .one ⟨(Expr.chain calls).write.toList, .chain ((rows calls).map Row.expr)⟩

def rows : List Expr → List (Row Operand)
  | [] => []
  | e :: es => e.row :: rows es

def row? : Option Expr → Option (Row Operand)
  | none => none
  | some e => some e.row

end

/-! ## Expressions that come back from their rows -/

/-- How tightly an expression binds: as its operator does, or more than any. -/
def level : Expr → Nat
  | .operation operator _ => operator.level
  | _ => Operator.levels.length

/-- Whether operators that bind like a given one stand in a row, and not all of them are that one. -/
def Mixes (operator : Operator) : Expr → Prop
  | .operation other (e :: _) => other.level = operator.level ∧ (other ≠ operator ∨ e.Mixes operator)
  | _ => False

/-- Whether the operands bind as tightly as the operator asks for that they belong to. Behind an exclamation
mark no operation may stand. The operands of an operation bind more tightly, or else there are two, and the
first is a row of operators that bind equally and are not all the same. -/
def Grouped : Expr → Prop
  | .negation e => e.level = Operator.levels.length
  | .operation operator es =>
    2 ≤ es.length ∧ ((∀ e ∈ es, operator.level < e.level) ∨
      ∃ l r, es = [l, r] ∧ l.Mixes operator ∧ operator.level < r.level)
  | _ => True

theorem level_of_mixes {operator : Operator} {e : Expr} (h : e.Mixes operator) :
    e.level = operator.level := by
  unfold Mixes at h
  split at h
  · exact h.1
  · exact h.elim

theorem rows_eq (es : List Expr) : rows es = es.map row := by
  induction es with
  | nil => rfl
  | cons e es ih => rw [rows, ih, List.map_cons]

theorem allOf_iff {p : Expr → Prop} {es : List Expr} : AllOf p es ↔ ∀ e ∈ es, e.All p := by
  induction es with
  | nil => simp [AllOf]
  | cons e es ih => rw [AllOf, ih, List.forall_mem_cons]

theorem row_operation {operator : Operator} {e : Expr} {es : List Expr} :
    (Expr.operation operator (e :: es)).row = .join operator e.row (es.map row) := by
  rw [row, rows_eq]
  rfl

/-- Inside of an expression no operator binds less than the expression does. -/
theorem level_le_row {e : Expr} (h : e.All Grouped) : ∀ x ∈ e.row.rest, e.level ≤ x.1.level := by
  match e with
  | .literal _ | .parenthesis _ | .call _ _ _ _ | .chain _ => exact nofun
  | .negation e =>
    obtain ⟨hlevel, he⟩ := h
    have hrow := level_le_row he
    rw [hlevel] at hrow
    exact hrow
  | .operation operator [] => exact nofun
  | .operation operator (e :: es) =>
    obtain ⟨⟨-, hgrouped⟩, hall⟩ := h
    have hall := allOf_iff.mp hall
    have hle : ∀ d ∈ e :: es, operator.level ≤ d.level := by
      rcases hgrouped with htight | ⟨l, r, hes, hmixes, htight⟩
      · exact fun d hd => Nat.le_of_lt (htight d hd)
      · cases hes
        intro d hd
        rcases List.mem_cons.mp hd with rfl | hd
        · exact Nat.le_of_eq (level_of_mixes hmixes).symm
        · rw [List.mem_singleton.mp hd]
          exact Nat.le_of_lt htight
    intro x hx
    rw [row_operation] at hx
    rcases List.mem_append.mp hx with hx | hx
    · exact Nat.le_trans (hle e (by simp)) (level_le_row (hall e (by simp)) x hx)
    obtain ⟨s, hs, hx⟩ := List.mem_flatMap.mp hx
    rcases List.mem_cons.mp hx with rfl | hx
    · exact Nat.le_refl _
    obtain ⟨d, hd, rfl⟩ := List.mem_map.mp hs
    exact Nat.le_trans (hle d (List.mem_cons_of_mem _ hd))
      (level_le_row (hall d (List.mem_cons_of_mem _ hd)) x hx)

theorem rest_row_eq_nil {e : Expr} (h : e.All Grouped) (hlevel : e.level = Operator.levels.length) :
    e.row.rest = [] := by
  refine List.eq_nil_iff_forall_not_mem.mpr fun x hx => ?_
  have hle := level_le_row h x hx
  have hlt := Row.level_lt x.1
  omega

theorem exists_of_mixes {operator : Operator} {e : Expr} (h : e.All Grouped) (hmixes : e.Mixes operator) :
    ∃ x ∈ e.row.rest, x.1.level = operator.level ∧ x.1 ≠ operator := by
  cases e with
  | operation other es =>
    cases es with
    | nil => exact hmixes.elim
    | cons e es =>
      obtain ⟨⟨hlength, -⟩, hall⟩ := h
      rw [Mixes] at hmixes
      obtain ⟨hlevel, hother | hmixes⟩ := hmixes
      · cases es with
        | nil => exact absurd hlength (by simp)
        | cons d es =>
          refine ⟨(other, d.row.first), ?_, hlevel, hother⟩
          simp [row_operation, Row.join]
      · obtain ⟨x, hx, hx'⟩ := exists_of_mixes hall.1 hmixes
        exact ⟨x, by rw [row_operation]; exact List.mem_append_left _ hx, hx'⟩
  | _ => exact hmixes.elim

mutual

/-- An expression whose operands bind tightly enough comes back from its row. -/
theorem expr_row {e : Expr} (h : e.All Grouped) : e.row.expr = e := by
  match e with
  | .literal value => exact Row.expr_of_rest rfl
  | .negation e =>
    obtain ⟨hlevel, he⟩ := h
    have hrest := rest_row_eq_nil he hlevel
    have hexpr := expr_row he
    rw [Row.expr_of_rest hrest] at hexpr
    have hnegated : e.row.negated.rest = [] := hrest
    rw [row, Row.expr_of_rest hnegated]
    exact congrArg Expr.negation hexpr
  | .operation operator [] => exact absurd h.1.1 (by simp)
  | .operation operator (e :: es) =>
    have hexprs := map_expr_rows h.2
    have hall := allOf_iff.mp h.2
    obtain ⟨⟨hlength, hgrouped⟩, -⟩ := h
    rw [rows_eq] at hexprs
    have hsplit : Row.Split (Expr.operation operator (e :: es)).row operator ((e :: es).map row) := by
      rw [row_operation]
      rcases hgrouped with htight | ⟨l, r, hes, hmixes, htight⟩
      · refine .alike ?_ fun s hs x hx => ?_
        · rintro heq
          rw [List.map_eq_nil_iff.mp heq] at hlength
          exact absurd hlength (by simp)
        · obtain ⟨d, hd, rfl⟩ := List.mem_map.mp (show s ∈ (e :: es).map row from hs)
          exact Nat.lt_of_lt_of_le (htight d hd) (level_le_row (hall d hd) x hx)
      · cases hes
        have hlevel := level_of_mixes hmixes
        refine .mixed ?_ (exists_of_mixes (hall _ (by simp)) hmixes) fun x hx => ?_
        · rw [← hlevel]
          exact level_le_row (hall _ (by simp))
        · exact Nat.lt_of_lt_of_le htight (level_le_row (hall _ (by simp)) x hx)
    rw [hsplit.expr_eq, hexprs]
  | .parenthesis e =>
    rw [row, Row.expr_of_rest rfl]
    exact congrArg Expr.parenthesis (expr_row h.2)
  | .call qualifier name f es =>
    rw [row, Row.expr_of_rest rfl]
    have hfilter := map_expr_row? h.2.1
    have hargs := map_expr_rows h.2.2
    rw [Row.one, hfilter, hargs]
  | .chain es =>
    rw [row, Row.expr_of_rest rfl]
    exact congrArg Expr.chain (map_expr_rows h.2)

theorem map_expr_rows {es : List Expr} (h : AllOf Grouped es) : (rows es).map Row.expr = es := by
  match es with
  | [] => rfl
  | e :: es => rw [rows, List.map_cons, expr_row h.1, map_expr_rows h.2]

theorem map_expr_row? {f : Option Expr} (h : AllOfFilter Grouped f) : (row? f).map Row.expr = f := by
  match f with
  | none => rfl
  | some e => rw [row?, Option.map_some, expr_row h]

end

end Expr

/-! ## What rows are read as comes back -/

/-- What an operand is read as binds more tightly than any operator, and so do the operands in it. -/
def Operand.Firm (a : Operand) : Prop := a.expr.level = Operator.levels.length ∧ a.expr.All Expr.Grouped

namespace Row

theorem mem_items_join {α : Type} {operator : Operator} {r : Row α} {rows : List (Row α)} {s : Row α}
    (hs : s ∈ r :: rows) : ∀ a ∈ s.items, a ∈ (join operator r rows).items := by
  intro a ha
  rcases List.mem_cons.mp hs with rfl | hs
  · rcases List.mem_cons.mp ha with rfl | ha
    · exact List.mem_cons_self
    · rw [items, join, List.map_append]
      exact List.mem_cons_of_mem _ (List.mem_append_left _ ha)
  · refine List.mem_cons_of_mem _ ?_
    rw [join, List.map_append, List.map_flatMap]
    exact List.mem_append_right _ (List.mem_flatMap.mpr ⟨s, hs, ha⟩)

theorem Split.mem_items {α : Type} {r : Row α} {operator : Operator} {parts : List (Row α)}
    (h : Split r operator parts) : ∀ s ∈ parts, ∀ a ∈ s.items, a ∈ r.items := by
  cases h with
  | alike => exact fun s hs => mem_items_join hs
  | mixed => exact fun s hs => mem_items_join hs

theorem level_expr {r : Row Operand} (hfirm : ∀ a ∈ r.items, a.Firm) {level : Nat}
    (hlevel : level ≤ Operator.levels.length) (h : ∀ x ∈ r.rest, level ≤ x.1.level) :
    level ≤ r.expr.level := by
  cases hsplit : r.split? with
  | none =>
    rw [expr_of_rest (split?_eq_none.mp hsplit), (hfirm r.first (by simp [items])).1]
    exact hlevel
  | some found =>
    obtain ⟨operator, parts⟩ := found
    have hsplit := split?_eq_some.mp hsplit
    rw [hsplit.expr_eq]
    cases hsplit with
    | @alike _ s rows hrows htight =>
      obtain ⟨t, ts, rfl⟩ := List.exists_cons_of_ne_nil hrows
      exact h (operator, t.first) (by simp [join])
    | @mixed _ s t hle hother htight => exact h (operator, t.first) (by simp [join])

/-- A row whose loosest operators are not all the same is read as such. -/
theorem mixes_expr {r : Row Operand} {operator : Operator} (hle : ∀ x ∈ r.rest, operator.level ≤ x.1.level)
    (hother : ∃ x ∈ r.rest, x.1.level = operator.level ∧ x.1 ≠ operator) : r.expr.Mixes operator := by
  obtain ⟨x, hx, hlevel, hne⟩ := hother
  cases hsplit : r.split? with
  | none =>
    rw [split?_eq_none.mp hsplit] at hx
    exact absurd hx List.not_mem_nil
  | some found =>
    obtain ⟨other, parts⟩ := found
    have hsplit := split?_eq_some.mp hsplit
    have hshorter := hsplit.length_lt
    rw [hsplit.expr_eq]
    cases hsplit with
    | @alike _ s rows hrows htight =>
      obtain ⟨t, ts, rfl⟩ := List.exists_cons_of_ne_nil hrows
      have hother : operator.level ≤ other.level := hle (other, t.first) (by simp [join])
      have hxother : x.1 = other := by
        rcases List.mem_append.mp hx with hx | hx
        · have := htight s (by simp) x hx
          omega
        obtain ⟨u, hu, hx⟩ := List.mem_flatMap.mp hx
        rcases List.mem_cons.mp hx with rfl | hx
        · rfl
        · have := htight u (List.mem_cons_of_mem _ hu) x hx
          omega
      rw [List.map_cons, Expr.Mixes]
      exact ⟨hxother ▸ hlevel, .inl (hxother ▸ hne)⟩
    | @mixed _ s t hbefore hmixed htight =>
      have hother : operator.level ≤ other.level := hle (other, t.first) (by simp [join])
      rw [List.map_cons, Expr.Mixes]
      rcases List.mem_append.mp hx with hx | hx
      · have hsame := hbefore x hx
        refine ⟨by omega, ?_⟩
        by_cases hop : other = operator
        · subst hop
          have := hshorter s (by simp)
          exact .inr (mixes_expr hbefore ⟨x, hx, hlevel, hne⟩)
        · exact .inl hop
      · rw [List.flatMap_singleton] at hx
        rcases List.mem_cons.mp hx with rfl | hx
        · exact ⟨hlevel, .inl hne⟩
        · have := htight x hx
          omega
termination_by r.rest.length

/-- Whatever a row is read as, its operands bind tightly enough. -/
theorem grouped_expr {r : Row Operand} (hfirm : ∀ a ∈ r.items, a.Firm) : r.expr.All Expr.Grouped := by
  cases hsplit : r.split? with
  | none =>
    rw [expr_of_rest (split?_eq_none.mp hsplit)]
    exact (hfirm r.first (by simp [items])).2
  | some found =>
    obtain ⟨operator, parts⟩ := found
    have hsplit := split?_eq_some.mp hsplit
    have hshorter := hsplit.length_lt
    have hitems := hsplit.mem_items
    have hlt := level_lt operator
    rw [hsplit.expr_eq]
    refine ⟨?_, Expr.allOf_iff.mpr fun e he => ?_⟩
    · cases hsplit with
      | @alike _ s rows hrows htight =>
        obtain ⟨t, ts, rfl⟩ := List.exists_cons_of_ne_nil hrows
        refine ⟨by simp, .inl fun e he => ?_⟩
        obtain ⟨u, hu, rfl⟩ := List.mem_map.mp he
        exact level_expr (fun a ha => hfirm a (hitems u hu a ha)) hlt (htight u hu)
      | @mixed _ s t hle hother htight =>
        refine ⟨by simp, .inr ⟨s.expr, t.expr, rfl, mixes_expr hle hother, ?_⟩⟩
        exact level_expr (fun a ha => hfirm a (hitems t (by simp) a ha)) hlt htight
    · obtain ⟨s, hs, rfl⟩ := List.mem_map.mp he
      have := hshorter s hs
      exact grouped_expr fun a ha => hfirm a (hitems s hs a ha)
termination_by r.rest.length

end Row

namespace Expr

mutual

theorem firm_row (e : Expr) : ∀ a ∈ e.row.items, a.Firm := by
  match e with
  | .literal value =>
    rintro a (_ | ⟨_, ⟨⟩⟩)
    exact ⟨rfl, trivial⟩
  | .negation e =>
    obtain ⟨hfirst, hrest⟩ := List.forall_mem_cons.mp (firm_row e)
    exact List.forall_mem_cons.mpr ⟨⟨rfl, hfirst⟩, hrest⟩
  | .operation operator [] =>
    rintro a (_ | ⟨_, ⟨⟩⟩)
    exact ⟨rfl, trivial⟩
  | .operation operator (e :: es) =>
    have he := firm_row e
    have hes := firm_rows es
    rw [row_operation]
    refine List.forall_mem_cons.mpr ⟨he _ List.mem_cons_self, fun a ha => ?_⟩
    rw [Row.join, List.map_append] at ha
    rcases List.mem_append.mp ha with ha | ha
    · exact he a (List.mem_cons_of_mem _ ha)
    rw [List.map_flatMap] at ha
    obtain ⟨s, hs, ha⟩ := List.mem_flatMap.mp ha
    exact hes s (by rwa [rows_eq]) a ha
  | .parenthesis e =>
    rintro a (_ | ⟨_, ⟨⟩⟩)
    exact ⟨rfl, trivial, Row.grouped_expr (firm_row e)⟩
  | .call qualifier name f es =>
    rintro a (_ | ⟨_, ⟨⟩⟩)
    refine ⟨rfl, trivial, ?_, allOf_iff.mpr fun d hd => ?_⟩
    · cases f with
      | none => trivial
      | some e => exact Row.grouped_expr (firm_row e)
    · obtain ⟨s, hs, rfl⟩ := List.mem_map.mp hd
      exact Row.grouped_expr (firm_rows es s hs)
  | .chain es =>
    rintro a (_ | ⟨_, ⟨⟩⟩)
    refine ⟨rfl, trivial, allOf_iff.mpr fun d hd => ?_⟩
    obtain ⟨s, hs, rfl⟩ := List.mem_map.mp hd
    exact Row.grouped_expr (firm_rows es s hs)

theorem firm_rows (es : List Expr) : ∀ s ∈ rows es, ∀ a ∈ s.items, a.Firm := by
  match es with
  | [] => exact nofun
  | e :: es => exact List.forall_mem_cons.mpr ⟨firm_row e, firm_rows es⟩

end

/-- Read back from its row, an expression is the same exactly when its operands bind tightly enough. -/
theorem expr_row_eq_iff {e : Expr} : e.row.expr = e ↔ e.All Grouped := by
  constructor
  · intro h
    rw [← h]
    exact Row.grouped_expr (firm_row e)
  · exact expr_row

end Expr

end ModelText.Template
