import ModelText.Proofs.Template.Reprinted
import ModelText.Proofs.Template.Shown

/-!
# Expressions written and read again

An expression that was read is written as its row. So what the text is read as again is what the row is read
as, and it has the same shape exactly when the operands bind as tightly as their operators ask for.
-/

namespace ModelText.Template

open Source
open Text (byteCount)

namespace Expr

/-! ## The row is the text -/

theorem flatMap_eq_intercalate (separator first : List Char) (parts : List (List Char)) :
    List.intercalate separator (first :: parts) = first ++ parts.flatMap (separator ++ ·) := by
  induction parts generalizing first with
  | nil => simp
  | cons part parts ih => rw [List.intercalate_cons_cons, ih, List.flatMap_cons, List.append_assoc, List.append_assoc]

theorem chars_join (operator : Operator) (r : Row Operand) (rows : List (Row Operand)) :
    (Row.join operator r rows).chars =
      r.chars ++ rows.flatMap fun s => ' ' :: (operator.symbol.toList ++ ' ' :: s.chars) :=
  @Row.text_join Operand .printed operator r rows

mutual

/-- The text of an expression is that of its row. -/
theorem toList_write (e : Expr) : e.write.toList = e.row.chars := by
  match e with
  | .literal _ | .parenthesis _ | .call _ _ _ _ | .chain _ => rw [row, Row.chars_one]
  | .negation e =>
    rw [write, String.toList_append, toList_write e]
    rfl
  | .operation operator [] => rfl
  | .operation operator (e :: es) =>
    have hes := toList_writeAll es
    rw [row_operation, chars_join, write, String.toList_intercalate, writeAll, List.map_cons,
      flatMap_eq_intercalate, toList_write e, hes, rows_eq, List.flatMap_map]
    simp [List.flatMap_map, String.toList_append]

theorem toList_writeAll (es : List Expr) : (writeAll es).map String.toList = (rows es).map Row.chars := by
  match es with
  | [] => rfl
  | e :: es => rw [writeAll, rows, List.map_cons, List.map_cons, toList_write e, toList_writeAll es]

end

theorem toList_writeFilter (f : Option Expr) :
    (writeFilter f).map String.toList = (row? f).map Row.chars := by
  cases f with
  | none => rfl
  | some e => rw [writeFilter, row?, Option.map_some, Option.map_some, toList_write]

/-! ## Expressions whose parts come back -/

/-- A double that comes back from its text, a call that is no word of a literal, or an expression of another
form. -/
def Faithful : Expr → Prop
  | .literal (.double x) => (Literal.double x).Returns
  | .call none name none [] => name ∉ Literal.words
  | _ => True

/-- A literal that is read from its text as a related one, a call that is no word of a literal, or an
expression of another form. -/
def Recovers (Rel : Literal → Literal → Prop) : Expr → Prop
  | .literal value => value.ReturnsTo Rel
  | .call none name none [] => name ∉ Literal.words
  | _ => True

theorem recovers_of_faithful {e : Expr} (h : e.Faithful) : e.Recovers Tree.WrittenAlike := by
  unfold Recovers
  split
  · next value =>
    by_cases hdouble : ∃ x, value = .double x
    · obtain ⟨x, rfl⟩ := hdouble
      exact h
    · exact ⟨value, Literal.read?_write fun x hx => hdouble ⟨x, hx⟩, rfl⟩
  · exact h
  · trivial

variable {Rel : Literal → Literal → Prop}

theorem not_mem_words_of_recovers {qualifier : Option Qualifier} {name : String} {f : Option Expr}
    {es : List Expr} (h : (Expr.call qualifier name f es).Recovers Rel) :
    (Expr.call qualifier name f es).write ∉ Literal.words := by
  have hwords : ∀ word ∈ Literal.words, ∀ c ∈ word.toList, c ∉ [':', '(', '['] := by decide
  intro hmem
  have hchars := hwords _ hmem
  rw [write, Input.toList_callText, Input.callChars] at hchars
  cases qualifier with
  | some q => exact hchars ':' (by simp [Input.qualifierChars]) (by simp)
  | none =>
    cases es with
    | cons e es => exact hchars '(' (by simp [writeAll, Input.argsChars]) (by simp)
    | nil =>
      cases f with
      | some e => exact hchars '[' (by simp [writeFilter, Input.filterChars]) (by simp)
      | none =>
        refine h ?_
        have hwrite : (Expr.call none name none []).write = name := by
          simp [write, Tree.callText, writeAll, writeFilter]
        rwa [hwrite] at hmem

/-! ## Rows read back -/

theorem readsCall_call {qualifier : Option Qualifier} {name : String} {f : Option Expr} {es : List Expr}
    (hname : Input.IsCallName name) (hargs : ∀ r ∈ rows es, ∀ a ∈ r.items, a.Reads Rel)
    (hfilter : ∀ r ∈ row? f, ∀ a ∈ r.items, a.Reads Rel) :
    (Expr.call qualifier name f es).row.first.ReadsCall Rel := by
  have hread := @Operand.readsCall Rel qualifier name (rows es) (row? f) hname hargs hfilter
  rw [row, Row.one, write, Input.toList_callText, toList_writeAll, toList_writeFilter]
  exact hread

mutual

theorem reads_row {e : Expr} (hmade : e.All WellMade) (hrecovers : e.All (Recovers Rel)) :
    ∀ a ∈ e.row.items, a.Reads Rel := by
  match e with
  | .literal value =>
    rintro a (_ | ⟨_, ⟨⟩⟩)
    exact Operand.reads_literal hrecovers
  | .negation e =>
    obtain ⟨hfirst, hrest⟩ := List.forall_mem_cons.mp (reads_row hmade.2 hrecovers.2)
    exact List.forall_mem_cons.mpr ⟨hfirst.negated, hrest⟩
  | .operation operator [] => exact absurd rfl hmade.1
  | .operation operator (e :: es) =>
    have he := reads_row hmade.2.1 hrecovers.2.1
    have hes := reads_rows hmade.2.2 hrecovers.2.2
    rw [row_operation]
    refine List.forall_mem_cons.mpr ⟨he _ List.mem_cons_self, fun a ha => ?_⟩
    rw [Row.join, List.map_append] at ha
    rcases List.mem_append.mp ha with ha | ha
    · exact he a (List.mem_cons_of_mem _ ha)
    rw [List.map_flatMap] at ha
    obtain ⟨s, hs, ha⟩ := List.mem_flatMap.mp ha
    exact hes s (by rwa [rows_eq]) a ha
  | .parenthesis e =>
    have he := reads_row hmade.2 hrecovers.2
    rintro a (_ | ⟨_, ⟨⟩⟩)
    have hwrite : (Expr.parenthesis e).write.toList = '(' :: e.row.chars ++ [')'] := by
      rw [write, String.toList_append, String.toList_append, toList_write]
      rfl
    rw [row, Row.one, hwrite]
    exact Operand.reads_parenthesis he
  | .call qualifier name f es =>
    have hread := @readsCall_call Rel qualifier name f es hmade.1 (reads_rows hmade.2.2 hrecovers.2.2)
      (reads_row? hmade.2.1 hrecovers.2.1)
    rintro a (_ | ⟨_, ⟨⟩⟩)
    refine hread.reads ?_
    rw [row, Row.one, String.ofList_toList]
    exact not_mem_words_of_recovers hrecovers.1
  | .chain es =>
    have hcalls := readsCall_rows hmade.1.2 hmade.2 hrecovers.2
    rintro a (_ | ⟨_, ⟨⟩⟩)
    have hfirsts : ∀ a ∈ (rows es).map Row.first, a.ReadsCall Rel := by
      intro a ha
      obtain ⟨r, hr, rfl⟩ := List.mem_map.mp ha
      exact (hcalls r hr).2
    have hlength : 2 ≤ ((rows es).map Row.first).length := by
      rw [rows_eq, List.length_map, List.length_map]
      exact hmade.1.1
    have hchars : ((rows es).map Row.first).map Operand.chars = (rows es).map Row.chars := by
      rw [List.map_map]
      refine List.map_congr_left fun r hr => ?_
      rw [Row.chars, (hcalls r hr).1, Function.comp_apply]
      exact (List.append_nil _).symm
    have hexprs : ((rows es).map Row.first).map Operand.expr = (rows es).map Row.expr := by
      rw [List.map_map]
      exact List.map_congr_left fun r hr => (Row.expr_of_rest (hcalls r hr).1).symm
    have hread := Operand.reads_chain hfirsts hlength
    rw [hchars, hexprs] at hread
    rw [row, Row.one, write, String.toList_intercalate, toList_writeAll]
    exact hread

theorem reads_rows {es : List Expr} (hmade : AllOf WellMade es) (hrecovers : AllOf (Recovers Rel) es) :
    ∀ r ∈ rows es, ∀ a ∈ r.items, a.Reads Rel := by
  match es with
  | [] => exact nofun
  | e :: es =>
    exact List.forall_mem_cons.mpr ⟨reads_row hmade.1 hrecovers.1, reads_rows hmade.2 hrecovers.2⟩

theorem reads_row? {f : Option Expr} (hmade : AllOfFilter WellMade f) (hrecovers : AllOfFilter (Recovers Rel) f) :
    ∀ r ∈ row? f, ∀ a ∈ r.items, a.Reads Rel := by
  match f with
  | none => exact nofun
  | some e =>
    rintro r ⟨⟩
    exact reads_row hmade hrecovers

theorem readsCall_rows {es : List Expr} (hcalls : ∀ e ∈ es, e.IsCall) (hmade : AllOf WellMade es)
    (hrecovers : AllOf (Recovers Rel) es) : ∀ r ∈ rows es, r.rest = [] ∧ r.first.ReadsCall Rel := by
  match es with
  | [] => exact nofun
  | .call qualifier name f args :: es =>
    refine List.forall_mem_cons.mpr ⟨⟨rfl, ?_⟩, ?_⟩
    · exact readsCall_call hmade.1.1 (reads_rows hmade.1.2.2 hrecovers.1.2.2)
        (reads_row? hmade.1.2.1 hrecovers.1.2.1)
    · exact readsCall_rows (List.forall_mem_cons.mp hcalls).2 hmade.2 hrecovers.2
  | .literal _ :: _ | .negation _ :: _ | .operation _ _ :: _ | .parenthesis _ :: _ | .chain _ :: _ =>
    exact (List.forall_mem_cons.mp hcalls).1.elim

end

/-! ## Expressions that one node shows -/

/-- An expression is put together as another one, as far as calls and operators go. -/
structure Alike (e d : Expr) : Prop where
  level : e.level = d.level
  mixes : ∀ operator, d.Mixes operator → e.Mixes operator
  call : d.IsCall → e.IsCall
  made : d.All WellMade → e.All WellMade
  grouped : d.All Grouped → e.All Grouped

theorem forall_mem_of_forall₂ {α β : Type} {R : α → β → Prop} {p : α → Prop} {q : β → Prop} {l : List α}
    {l' : List β} (h : List.Forall₂ R l l') (himp : ∀ a b, R a b → q b → p a) (hq : ∀ b ∈ l', q b) :
    ∀ a ∈ l, p a := by
  induction h with
  | nil => exact nofun
  | cons hab _ ih =>
    obtain ⟨hb, hq⟩ := List.forall_mem_cons.mp hq
    exact List.forall_mem_cons.mpr ⟨himp _ _ hab hb, ih hq⟩

theorem allOf_of_forall₂ {p : Expr → Prop} {es ds : List Expr} (h : List.Forall₂ Alike es ds)
    (hp : ∀ e d, Alike e d → d.All p → e.All p) (hds : AllOf p ds) : AllOf p es :=
  allOf_iff.mpr (forall_mem_of_forall₂ h hp (allOf_iff.mp hds))

theorem made_of_forall₂ {es ds : List Expr} (h : List.Forall₂ Alike es ds) : AllOf WellMade ds → AllOf WellMade es :=
  allOf_of_forall₂ h fun _ _ halike => halike.made

theorem grouped_of_forall₂ {es ds : List Expr} (h : List.Forall₂ Alike es ds) : AllOf Grouped ds → AllOf Grouped es :=
  allOf_of_forall₂ h fun _ _ halike => halike.grouped

theorem ne_nil_of_forall₂ {α β : Type} {R : α → β → Prop} {l : List α} {l' : List β} (h : List.Forall₂ R l l')
    (hne : l' ≠ []) : l ≠ [] := by
  cases h with
  | nil => exact absurd rfl hne
  | cons => exact List.cons_ne_nil _ _

theorem alike_operation {operator : Operator} {es ds : List Expr} (h : List.Forall₂ Alike es ds) :
    Alike (.operation operator es) (.operation operator ds) := by
  refine ⟨rfl, fun other hmixes => ?_, nofun, fun hmade => ⟨?_, made_of_forall₂ h hmade.2⟩,
    fun hgrouped => ⟨⟨?_, ?_⟩, grouped_of_forall₂ h hgrouped.2⟩⟩
  · cases h with
    | nil => exact hmixes
    | cons hfirst _ => exact ⟨hmixes.1, hmixes.2.imp_right (hfirst.mixes other)⟩
  · exact ne_nil_of_forall₂ h hmade.1
  · rw [h.length_eq]
    exact hgrouped.1.1
  · rcases hgrouped.1.2 with htight | ⟨l, r, rfl, hmixes, htight⟩
    · exact .inl (forall_mem_of_forall₂ h (fun e d halike hd => halike.level ▸ hd) htight)
    · cases h with
      | @cons e _ _ _ he h =>
        cases h with
        | @cons e' _ _ _ he' h =>
          cases h
          exact .inr ⟨e, e', rfl, he.mixes operator hmixes, he'.level ▸ htight⟩

theorem alike_literal {value other : Literal} : Alike (.literal value) (.literal other) :=
  ⟨rfl, fun _ => nofun, nofun, fun _ => trivial, fun _ => trivial⟩

theorem alike_negation {e d : Expr} (h : Alike e d) : Alike (.negation e) (.negation d) :=
  ⟨rfl, fun _ => nofun, nofun, fun hmade => ⟨trivial, h.made hmade.2⟩, fun hgrouped =>
    ⟨h.level.trans hgrouped.1, h.grouped hgrouped.2⟩⟩

theorem alike_parenthesis {e d : Expr} (h : Alike e d) : Alike (.parenthesis e) (.parenthesis d) :=
  ⟨rfl, fun _ => nofun, nofun, fun hmade => ⟨trivial, h.made hmade.2⟩, fun hgrouped =>
    ⟨trivial, h.grouped hgrouped.2⟩⟩

theorem allOfFilter_of_rel {p : Expr → Prop} {f f' : Option Expr} (h : Option.Rel Alike f f')
    (hp : ∀ e d, Alike e d → d.All p → e.All p) (hf' : AllOfFilter p f') : AllOfFilter p f := by
  cases h with
  | none => trivial
  | some halike => exact hp _ _ halike hf'

theorem alike_call {qualifier : Option Qualifier} {name : String} {f f' : Option Expr} {es ds : List Expr}
    (hf : Option.Rel Alike f f') (h : List.Forall₂ Alike es ds) :
    Alike (.call qualifier name f es) (.call qualifier name f' ds) := by
  refine ⟨rfl, fun _ => nofun, fun _ => trivial,
    fun hmade => ⟨hmade.1, ?_, made_of_forall₂ h hmade.2.2⟩,
    fun hgrouped => ⟨trivial, ?_, grouped_of_forall₂ h hgrouped.2.2⟩⟩
  · exact allOfFilter_of_rel hf (fun _ _ halike => halike.made) hmade.2.1
  · exact allOfFilter_of_rel hf (fun _ _ halike => halike.grouped) hgrouped.2.1

theorem alike_chain {es ds : List Expr} (h : List.Forall₂ Alike es ds) : Alike (.chain es) (.chain ds) := by
  refine ⟨rfl, fun _ => nofun, nofun, fun hmade => ⟨⟨?_, ?_⟩, made_of_forall₂ h hmade.2⟩,
    fun hgrouped => ⟨trivial, grouped_of_forall₂ h hgrouped.2⟩⟩
  · rw [h.length_eq]
    exact hmade.1.1
  · exact forall_mem_of_forall₂ h (fun _ _ halike => halike.call) hmade.1.2

mutual

/-- Expressions that one node shows differ in their literals at most. -/
theorem alike_of_showsExpr {t : Tree} {e d : Expr} {id : NodeId} (he : t.ShowsExpr e id)
    (hd : t.ShowsExpr d id) : Alike e d := by
  match e with
  | .literal value =>
    obtain ⟨own, hkind, -⟩ := he
    cases d with
    | literal _ => exact alike_literal
    | negation _ | operation _ _ | parenthesis _ | call _ _ _ _ | chain _ => simp [Tree.ShowsExpr, hkind] at hd
  | .negation e =>
    obtain ⟨i, -, hkind, he⟩ := he
    cases d with
    | negation d =>
      obtain ⟨j, -, hkind', hd⟩ := hd
      cases hkind.symm.trans hkind'
      exact alike_negation (alike_of_showsExpr he hd)
    | literal _ | operation _ _ | parenthesis _ | call _ _ _ _ | chain _ => simp [Tree.ShowsExpr, hkind] at hd
  | .operation operator es =>
    obtain ⟨is, hkind, hes⟩ := he
    cases d with
    | operation _ ds =>
      obtain ⟨js, hkind', hds⟩ := hd
      cases hkind.symm.trans hkind'
      exact alike_operation (alike_of_showsExprs hes hds)
    | literal _ | negation _ | parenthesis _ | call _ _ _ _ | chain _ => simp [Tree.ShowsExpr, hkind] at hd
  | .parenthesis e =>
    obtain ⟨i, -, hkind, he⟩ := he
    cases d with
    | parenthesis d =>
      obtain ⟨j, -, hkind', hd⟩ := hd
      cases hkind.symm.trans hkind'
      exact alike_parenthesis (alike_of_showsExpr he hd)
    | literal _ | negation _ | operation _ _ | call _ _ _ _ | chain _ => simp [Tree.ShowsExpr, hkind] at hd
  | .call qualifier name f es =>
    obtain ⟨g, is, hkind, hf, hes⟩ := he
    cases d with
    | call _ _ f' ds =>
      obtain ⟨g', js, hkind', hf', hds⟩ := hd
      cases hkind.symm.trans hkind'
      exact alike_call (alike_of_showsFilter hf hf') (alike_of_showsExprs hes hds)
    | literal _ | negation _ | operation _ _ | parenthesis _ | chain _ => simp [Tree.ShowsExpr, hkind] at hd
  | .chain es =>
    obtain ⟨is, hkind, hes⟩ := he
    cases d with
    | chain ds =>
      obtain ⟨js, hkind', hds⟩ := hd
      cases hkind.symm.trans hkind'
      exact alike_chain (alike_of_showsExprs hes hds)
    | literal _ | negation _ | operation _ _ | parenthesis _ | call _ _ _ _ => simp [Tree.ShowsExpr, hkind] at hd

theorem alike_of_showsExprs {t : Tree} {es ds : List Expr} {is : List NodeId} {bound bound' : NodeId}
    (hes : t.ShowsExprs es is bound) (hds : t.ShowsExprs ds is bound') : List.Forall₂ Alike es ds := by
  match es with
  | [] =>
    cases hes
    cases ds with
    | nil => exact .nil
    | cons d ds =>
      obtain ⟨_, _, _, hnil, _⟩ := hds
      cases hnil
  | e :: es =>
    obtain ⟨i, -, js, rfl, he, hes⟩ := hes
    cases ds with
    | nil => cases hds
    | cons d ds =>
      obtain ⟨_, -, _, heq, hd, hds⟩ := hds
      cases heq
      exact .cons (alike_of_showsExpr he hd) (alike_of_showsExprs hes hds)

theorem alike_of_showsFilter {t : Tree} {f f' : Option Expr} {g : Option NodeId} {bound bound' : NodeId}
    (hf : t.ShowsFilter f g bound) (hf' : t.ShowsFilter f' g bound') : Option.Rel Alike f f' := by
  match f with
  | none =>
    cases hf
    cases f' with
    | none => exact .none
    | some d =>
      obtain ⟨_, _, hnone, _⟩ := hf'
      cases hnone
  | some e =>
    obtain ⟨i, -, rfl, he⟩ := hf
    cases f' with
    | none => cases hf'
    | some d =>
      obtain ⟨_, -, heq, hd⟩ := hf'
      cases heq
      exact .some (alike_of_showsExpr he hd)

end

end Expr

/-! ## Written and read again -/

/-- Reads the whole text of an expression. -/
def readText (dialect : Dialect) (text : String) : Except Diagnostic NodeId × Draft :=
  (Input.readExpression ⟨Source.ofString text, dialect⟩ (Source.ofString text).whole).run (Draft.start dialect)

/-- What is read from a text shows an expression, and every expression that it shows is well made. -/
theorem exists_wellMade_of_readText {dialect : Dialect} {text : String} {id : NodeId} {d : Draft}
    (h : readText dialect text = (.ok id, d)) : ∃ e, d.tree.ShowsExpr e id ∧ e.All Expr.WellMade := by
  have hanswers := Input.answers_readNested ⟨Source.ofString text, dialect⟩ ((Source.ofString text).size + 2)
    (Source.ofString text).whole (Draft.start dialect).tree (Draft.start dialect) (.refl _)
  rw [readText, Input.readExpression] at h
  have hrun := hanswers.2.2
  rw [show _ = (Except.ok id, d) from h] at hrun
  exact hrun id rfl

/-- A whole text is read when it is read wherever it stands in its source. -/
theorem readText_of_yields {dialect : Dialect} {cs : List Char} {Q : Tree → NodeId → Prop}
    (h : ∀ {inp : Input} {span : Span}, inp.dialect = dialect → Input.Covers inp span cs →
      Attempt.Yields (Draft.start dialect).tree Q (inp.readNested (byteCount cs + 2) span)) :
    ∃ id d, readText dialect (String.ofList cs) = (.ok id, d) ∧ Q d.tree id := by
  have hsize : (Source.ofString (String.ofList cs)).size = byteCount cs := by
    rw [size_ofString, String.toList_ofList]
  have hfrom : (Source.ofString (String.ofList cs)).From 0 ([] ++ (cs ++ ([] ++ []))) := ⟨[], by simp, rfl⟩
  have hcovers : Input.Covers ⟨Source.ofString (String.ofList cs), dialect⟩
      (Source.ofString (String.ofList cs)).whole cs := by
    refine ⟨[], [], [], nofun, nofun, hfrom, ?_, by decide⟩
    rw [whole, hsize]
    exact (Nat.zero_add _).symm
  obtain ⟨-, -, id, hid, hQ⟩ := h rfl hcovers (Draft.start dialect) (.refl _)
  refine ⟨id, (readText dialect (String.ofList cs)).2, ?_, ?_⟩
  · rw [readText, Input.readExpression, hsize]
    exact Prod.ext hid rfl
  · rw [readText, Input.readExpression, hsize]
    exact hQ

/-- The text of an expression is read as its row. -/
theorem readText_write {Rel : Literal → Literal → Prop} {dialect : Dialect} {e : Expr}
    (hmade : e.All Expr.WellMade) (hrecovers : e.All (Expr.Recovers Rel)) :
    ∃ id d, readText dialect e.write = (.ok id, d) ∧ d.tree.StandsFor Rel e.row.expr id := by
  have hwrite : String.ofList e.row.chars = e.write := by rw [← Expr.toList_write, String.ofList_toList]
  rw [← hwrite]
  exact readText_of_yields fun _ hcovers =>
    Input.yields_readNested (Expr.reads_row hmade hrecovers) (by omega) hcovers

/-- A faithful expression is shown again by what its text is read as. -/
theorem readText_shows {dialect : Dialect} {e : Expr} (hmade : e.All Expr.WellMade)
    (hfaithful : e.All Expr.Faithful) :
    ∃ id d, readText dialect e.write = (.ok id, d) ∧ d.tree.ShowsExpr e.row.expr id := by
  obtain ⟨id, d, hread, hstands⟩ :=
    @readText_write Tree.WrittenAlike dialect e hmade (hfaithful.imp fun _ => Expr.recovers_of_faithful)
  exact ⟨id, d, hread, Tree.showsExpr_iff.mpr hstands⟩

/-- Whatever expression is read, the text that it is written as is read again. It shows the expression once
more exactly when each of its operands binds as tightly as its operator asks for. -/
theorem readText_unparse_iff {dialect : Dialect} {text : String} {id : NodeId} {d : Draft}
    (h : readText dialect text = (.ok id, d)) :
    (∃ e, d.tree.ShowsExpr e id) ∧
      ∀ e, d.tree.ShowsExpr e id → e.All Expr.Faithful →
        ∃ id' d', readText dialect (d.tree.unparse id) = (.ok id', d') ∧
          (d'.tree.ShowsExpr e id' ↔ e.All Expr.Grouped) := by
  obtain ⟨own, hown, hmade⟩ := exists_wellMade_of_readText h
  refine ⟨⟨own, hown⟩, fun e he hfaithful => ?_⟩
  obtain ⟨id', d', hread, hshows⟩ :=
    @readText_shows dialect e ((Expr.alike_of_showsExpr he hown).made hmade) hfaithful
  have hlt : id < d.tree.size := by
    obtain ⟨kind, hkind⟩ := Tree.exists_kind_of_showsExpr he
    exact Tree.lt_size_of_kind? hkind
  have hunparse : d.tree.unparse id = e.write := Tree.textOf_of_showsExpr he (Nat.lt_succ_of_lt hlt)
  refine ⟨id', d', hunparse ▸ hread, fun hagain => ?_, fun hgrouped => ?_⟩
  · exact (Expr.alike_of_showsExpr hagain hshows).grouped (Row.grouped_expr (Expr.firm_row e))
  · rwa [Expr.expr_row hgrouped] at hshows

/-- The double of a negated call in parentheses. -/
def doubledParenthesis : Expr :=
  .operation .multiply [.literal (.int 2),
    .parenthesis (.operation .subtract [.literal (.int 0), .call none "x" none []])]

/-- In parentheses a sign keeps its operand. -/
theorem readText_unparse_iff_parentheses :
    ∃ id d, readText .angle "2 * (-x)" = (.ok id, d) ∧ d.tree.ShowsExpr doubledParenthesis id ∧
      doubledParenthesis.All Expr.Faithful ∧
      ∃ id' d', readText .angle (d.tree.unparse id) = (.ok id', d') ∧
        d'.tree.ShowsExpr doubledParenthesis id' := by
  have hread : readText .angle "2 * (-x)" = (.ok 5, (readText .angle "2 * (-x)").2) := Prod.ext rfl rfl
  have hshows : (readText .angle "2 * (-x)").2.tree.ShowsExpr doubledParenthesis 5 := by
    refine ⟨[0, 4], rfl, 0, by decide, [4], rfl, ⟨.int 2, rfl, rfl⟩, 4, by decide, [], rfl, ?_, rfl⟩
    refine ⟨3, by decide, rfl, [1, 2], rfl, 1, by decide, [2], rfl, ⟨.int 0, rfl, rfl⟩, 2, by decide, [], rfl, ?_, rfl⟩
    exact ⟨none, [], rfl, rfl, rfl⟩
  have hfaithful : doubledParenthesis.All Expr.Faithful := by
    refine ⟨trivial, trivial, ⟨trivial, trivial, trivial, ⟨?_, trivial, trivial⟩, trivial⟩, trivial⟩
    show "x" ∉ Literal.words
    decide
  have hgrouped : doubledParenthesis.All Expr.Grouped := by
    refine ⟨⟨by decide, .inl ?_⟩, trivial, ⟨trivial, ⟨by decide, .inl ?_⟩, trivial, ⟨trivial, trivial, trivial⟩, trivial⟩, trivial⟩
    · intro e he
      simp only [List.mem_cons, List.not_mem_nil, or_false] at he
      rcases he with rfl | rfl <;> decide
    · intro e he
      simp only [List.mem_cons, List.not_mem_nil, or_false] at he
      rcases he with rfl | rfl <;> decide
  obtain ⟨id', d', hagain, hiff⟩ := (readText_unparse_iff hread).2 _ hshows hfaithful
  exact ⟨5, _, hread, hshows, hfaithful, id', d', hagain, hiff.mpr hgrouped⟩

/-- A difference from a negated call. -/
def negativeSubtracted : Expr :=
  .operation .subtract [.call none "a" none [], .operation .subtract [.literal (.int 0), .call none "b" none []]]

/-- A sign behind another operator is written as an operator that is read before the sign's operand. -/
theorem readText_unparse_regrouped :
    ∃ id d, readText .angle "a - -b" = (.ok id, d) ∧ d.tree.ShowsExpr negativeSubtracted id ∧
      d.tree.unparse id = "a - 0 - b" ∧
      ¬ ∃ id' d', readText .angle (d.tree.unparse id) = (.ok id', d') ∧
        d'.tree.ShowsExpr negativeSubtracted id' := by
  have hread : readText .angle "a - -b" = (.ok 4, (readText .angle "a - -b").2) := Prod.ext rfl rfl
  have hunparse : (readText .angle "a - -b").2.tree.unparse 4 = "a - 0 - b" := by decide +kernel
  refine ⟨4, _, hread, ?_, hunparse, ?_⟩
  · refine ⟨[0, 3], rfl, 0, by decide, [3], rfl, ⟨none, [], rfl, rfl, rfl⟩, 3, by decide, [], rfl, ?_, rfl⟩
    refine ⟨[1, 2], rfl, 1, by decide, [2], rfl, ⟨.int 0, rfl, rfl⟩, 2, by decide, [], rfl, ?_, rfl⟩
    exact ⟨none, [], rfl, rfl, rfl⟩
  · rintro ⟨id', d', hagain, is, hkind, hshows⟩
    rw [hunparse] at hagain
    have hown : readText .angle "a - 0 - b" = (.ok 3, (readText .angle "a - 0 - b").2) := Prod.ext rfl rfl
    have hother : (readText .angle "a - 0 - b").2.tree.kind? 3 = some (.operation .subtract [0, 1, 2]) := rfl
    rw [hown] at hagain
    cases hagain
    cases hother.symm.trans hkind
    obtain ⟨_, -, _, heq, -, _, -, _, heq', -, hnil⟩ := hshows
    cases heq
    cases heq'
    cases hnil

end ModelText.Template
