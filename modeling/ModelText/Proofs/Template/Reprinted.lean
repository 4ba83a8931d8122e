import ModelText.Proofs.Template.CallTexts
import ModelText.Proofs.Template.LiteralTexts

/-!
# Operands read back

Each operand in the row of an expression is read as itself, up to the grouping of what stands in its brackets.
So the text of an expression is read as what its row is read as.
-/

namespace ModelText.Template

open Source
open Text (byteCount)

namespace Row

theorem chars_one (a : Operand) : (one a).chars = a.chars := Writing.printed.text_one a

/-- In a row no comma is visible. -/
theorem matched_chars {r : Row Operand} (h : ∀ a ∈ r.items, Input.IsOperand a.chars) :
    Matched (· != ',') r.chars := by
  have htail {l : List (Operator × Operand)} (hl : ∀ x ∈ l, Input.IsOperand x.2.chars) :
      Matched (· != ',') (Writing.printed.tail l) := by
    induction l with
    | nil => exact .nil
    | cons x l ih =>
      obtain ⟨hx, hl⟩ := List.forall_mem_cons.mp hl
      have hsymbol : ∀ c ∈ ' ' :: (x.1.symbol.toList ++ [' ']), c ∉ bracketChars ∧ (c != ',') = true := by
        cases x.1 <;> decide
      have hchars : Writing.printed.tail (x :: l) =
          ' ' :: (x.1.symbol.toList ++ [' ']) ++ (x.2.chars ++ Writing.printed.tail l) := by
        simp [Writing.tail_cons, Writing.printed]
      rw [hchars]
      exact (Matched.of_plain hsymbol).append (hx.matched.append (ih hl))
  obtain ⟨hfirst, hrest⟩ := List.forall_mem_cons.mp h
  exact hfirst.matched.append (htail fun x hx => hrest _ (List.mem_map_of_mem hx))

end Row

namespace Input

variable {inp : Input} {rest cs : List Char} {start : Nat} {read : Span → Attempt NodeId}

/-! ## What is read behind the operators -/

theorem startsWith_eq_false {token : String} {c : Char} (htoken : token.toList = [c])
    (h : cs.head? ≠ some c) : Text.startsWith (String.ofList cs) token = false := by
  rw [Text.startsWith, String.toList_ofList, htoken, ← Bool.not_eq_true, List.isPrefixOf_iff_prefix]
  rintro ⟨tail, rfl⟩
  exact h rfl

theorem readOperand_literal (h : inp.src.From start (cs ++ rest)) {own : Literal}
    (hread : Literal.read? (String.ofList cs) = some own) (hhead : cs.head? ≠ some '!') :
    inp.readOperand read ⟨start, start + byteCount cs⟩ =
      Build.node (.literal own) ⟨start, start + byteCount cs⟩ [] := by
  have hstarts : Text.startsWith (String.ofList cs) "!" = false := startsWith_eq_false rfl hhead
  unfold readOperand
  simp only [h.slice, hstarts, hread]
  rfl

theorem readOperand_negation (h : inp.src.From start ('!' :: cs ++ rest)) :
    inp.readOperand read ⟨start, start + byteCount ('!' :: cs)⟩ = (do
      let operand ← read ⟨start + 1, start + 1 + byteCount cs⟩
      Build.node (.negation operand) ⟨start, start + byteCount ('!' :: cs)⟩ [operand]) := by
  have hstarts : Text.startsWith (String.ofList ('!' :: cs)) "!" = true := by
    simp only [Text.startsWith, String.toList_ofList]
    rfl
  have hcount : byteCount ('!' :: cs) = 1 + byteCount cs := rfl
  unfold readOperand
  simp only [h.slice, hstarts, if_true]
  rw [hcount, ← Nat.add_assoc, Span.ordered_of_le (Nat.le_add_right ..)]

/-- What begins with a name and is no literal is a chain of calls, or one of them. -/
theorem readOperand_name (h : inp.src.From start (cs ++ rest)) {c : Char} (hhead : cs.head? = some c)
    (hc : isNameChar true c = true) (hread : Literal.read? (String.ofList cs) = none) :
    inp.readOperand read ⟨start, start + byteCount cs⟩ =
      (match inp.splitAt ⟨start, start + byteCount cs⟩ "." with
      | [] | [_] => inp.readCall read ⟨start, start + byteCount cs⟩
      | parts => do
        let calls ← parts.mapM (inp.readCall read)
        Build.node (.chain calls) ⟨start, start + byteCount cs⟩ calls) := by
  have hsigns : ∀ d ∈ ['!', '-', '('], isNameChar true d = false := by decide
  have hne : ∀ d ∈ ['!', '-', '('], cs.head? ≠ some d := by
    intro d hd heq
    rw [hhead] at heq
    cases heq
    rw [hsigns _ hd] at hc
    cases hc
  have hround : inp.isParenthesis ⟨start, start + byteCount cs⟩ = false := by
    have hopens : inp.src.startsAt start "(" = false := by
      rw [← Bool.not_eq_true, h.startsAt_iff]
      rintro ⟨tail, htail⟩
      refine hne '(' (by simp) ?_
      cases cs with
      | nil => cases hhead
      | cons d ds =>
        have hd : '(' = d := (List.cons.inj htail).1
        rw [hd, List.head?_cons]
    rw [isParenthesis, hopens, Bool.false_and]
  have hbang : Text.startsWith (String.ofList cs) "!" = false := startsWith_eq_false rfl (hne '!' (by simp))
  have hminus : Text.startsWith (String.ofList cs) "-" = false := startsWith_eq_false rfl (hne '-' (by simp))
  unfold readOperand
  simp only [h.slice, hbang, hminus, hread, hround]
  rfl

end Input

namespace Operand

variable {Rel : Literal → Literal → Prop} {a : Operand} {r : Row Operand}

/-! ## Operands of each form -/

theorem reads_literal {value : Literal} (h : value.ReturnsTo Rel) :
    Operand.Reads Rel ⟨value.write.toList, .literal value⟩ := by
  obtain ⟨own, hread, hown⟩ := h
  refine ⟨Input.isOperand_write hread, fun {inp fuel t start rest} hfrom _ _ => ?_⟩
  rw [Input.readOperand_literal hfrom (by rwa [String.ofList_toList]) (Input.head?_write_ne value)]
  exact Attempt.Yields.node fun u id _ hkind _ => ⟨own, hkind, hown⟩

theorem Reads.negated (h : a.Reads Rel) : Operand.Reads Rel ⟨'!' :: a.chars, .negation a.expr⟩ := by
  refine ⟨.sign (by simp) h.isOperand, fun {inp fuel t start rest} hfrom hrest hfuel => ?_⟩
  have hcount : byteCount ('!' :: a.chars) = 1 + byteCount a.chars := rfl
  dsimp only at hfrom hfuel ⊢
  rw [hcount] at hfuel
  rw [Input.readOperand_negation hfrom]
  have hinside : inp.src.From (start + 1) (a.chars ++ rest) := hfrom.tail
  have hcovers : Input.Covers inp ⟨start + 1, start + 1 + byteCount a.chars⟩ (Row.one a).chars := by
    rw [Row.chars_one]
    exact ⟨[], [], rest, nofun, nofun, hinside, rfl, hrest⟩
  have hread := @Input.yields_readNested inp Rel (.one a) (by rintro b (_ | ⟨_, ⟨⟩⟩); exact h) fuel
    (by rw [Row.chars_one]; omega) _ hcovers t
  rw [Row.expr_of_rest rfl] at hread
  refine hread.bind fun u i _ hi => Attempt.Yields.node fun v id hv hkind hlt => ⟨i, ?_, hkind, hv.standsFor hi⟩
  obtain ⟨kind, hold⟩ := Tree.exists_kind_of_standsFor hi
  exact hlt i kind hold

theorem reads_parenthesis (h : ∀ a ∈ r.items, a.Reads Rel) :
    Operand.Reads Rel ⟨'(' :: r.chars ++ [')'], .parenthesis r.expr⟩ := by
  have hmatched := Row.matched_chars fun a ha => (h a ha).isOperand
  refine ⟨.core ⟨.bracketed ('(', ')') (by decide) hmatched.any, ⟨'(', rfl, by decide⟩, ⟨')', ?_, by decide⟩⟩,
    fun {inp fuel t start rest} hfrom hrest hfuel => ?_⟩
  · rw [List.getLast?_concat]
  have hcount : byteCount ('(' :: r.chars ++ [')']) = byteCount r.chars + 2 :=
    @Input.byteCount_bracketed ('(', ')') (by decide) r.chars
  dsimp only at hfrom hfuel ⊢
  rw [hcount] at hfuel ⊢
  have hflat : inp.src.From start ('(' :: r.chars ++ ')' :: rest) := by simpa using hfrom
  have hinside : inp.src.From (start + 1) (r.chars ++ ')' :: rest) := hflat.tail
  have hcovers : Input.Covers inp ⟨start + 1, start + 1 + byteCount r.chars⟩ r.chars :=
    ⟨[], [], ')' :: rest, nofun, nofun, hinside, rfl, Input.bracket_not_leading (by decide)⟩
  rw [← Nat.add_assoc, Input.readOperand_parentheses hmatched hflat]
  refine (Input.yields_readNested h (by omega) hcovers).bind fun u i _ hi =>
    Attempt.Yields.node fun v id hv hkind hlt => ⟨i, ?_, hkind, hv.standsFor hi⟩
  obtain ⟨kind, hold⟩ := Tree.exists_kind_of_standsFor hi
  exact hlt i kind hold

/-- A call whose text is read as the call, wherever it stands, by itself or in a chain. -/
structure ReadsCall (Rel : Literal → Literal → Prop) (a : Operand) : Prop where
  core : Input.IsCore a.chars
  head : ∃ c, a.chars.head? = some c ∧ Input.isNameChar true c = true
  undotted : Matched (· != '.') a.chars
  yields : ∀ {inp : Input} {fuel : Nat} {t : Tree} {span : Span}, Input.Covers inp span a.chars →
    byteCount a.chars ≤ fuel →
    Attempt.Yields t (fun u id => u.StandsFor Rel a.expr id) (inp.readCall (inp.readNested fuel) span)

/-- A row as one operand. -/
def ofRow (r : Row Operand) : Operand := ⟨r.chars, r.expr⟩

theorem readsAs_ofRow {inp : Input} {fuel : Nat} (h : ∀ a ∈ r.items, a.Reads Rel)
    (hfuel : byteCount r.chars < fuel) : Input.ReadsAs Rel inp (inp.readNested fuel) (ofRow r) := by
  have hoperands : ∀ a ∈ r.items, Input.IsOperand a.chars := fun a ha => (h a ha).isOperand
  exact ⟨Row.matched_chars hoperands, Input.hasEdges_printed hoperands,
    fun hcovers => Input.yields_readNested h hfuel hcovers⟩

section Call

variable {qualifier : Option Qualifier} {name : String} {args : List (Row Operand)} {filter : Option (Row Operand)}

theorem readsCall (hname : Input.IsCallName name) (hargs : ∀ r ∈ args, ∀ a ∈ r.items, a.Reads Rel)
    (hfilter : ∀ r ∈ filter, ∀ a ∈ r.items, a.Reads Rel) :
    ReadsCall Rel ⟨Input.callChars qualifier name (args.map Row.chars) (filter.map Row.chars),
      .call qualifier name (filter.map Row.expr) (args.map Row.expr)⟩ := by
  have hargsMatched : ∀ cs ∈ args.map Row.chars, Matched (fun _ => true) cs := by
    intro cs hcs
    obtain ⟨r, hr, rfl⟩ := List.mem_map.mp hcs
    exact (Row.matched_chars fun a ha => (hargs r hr a ha).isOperand).any
  have hfilterMatched : ∀ cs ∈ filter.map Row.chars, Matched (fun _ => true) cs := by
    intro cs hcs
    obtain ⟨r, hr, rfl⟩ := Option.map_eq_some_iff.mp hcs
    exact (Row.matched_chars fun a ha => (hfilter r hr a ha).isOperand).any
  refine ⟨Input.isCore_call hname hargsMatched hfilterMatched, ?_, ?_, fun {inp fuel t span} hcovers hfuel => ?_⟩
  · obtain ⟨c, cs, heq, hc⟩ := @Input.exists_callChars qualifier _ hname (args.map Row.chars) (filter.map Row.chars)
    exact ⟨c, by rw [heq]; rfl, hc⟩
  · refine Input.matched_call hname (fun c hc => ?_) hargsMatched hfilterMatched
    have hpoint : c ≠ '.' := by
      rcases hc with hc | rfl
      · exact Input.ne_of_isNameChar hc (by decide)
      · decide
    simpa using hpoint
  · dsimp only at hfuel
    have hargsRead : ∀ a ∈ args.map ofRow, Input.ReadsAs Rel inp (inp.readNested fuel) a := by
      intro a ha
      obtain ⟨r, hr, rfl⟩ := List.mem_map.mp ha
      exact readsAs_ofRow (hargs r hr) (Nat.lt_of_lt_of_le
        (Input.byteCount_lt_call (.inl (List.mem_map_of_mem hr))) hfuel)
    have hfilterRead : ∀ a ∈ filter.map ofRow, Input.ReadsAs Rel inp (inp.readNested fuel) a := by
      intro a ha
      obtain ⟨r, hr, rfl⟩ := Option.map_eq_some_iff.mp ha
      exact readsAs_ofRow (hfilter r hr) (Nat.lt_of_lt_of_le
        (Input.byteCount_lt_call (.inr (Option.mem_map_of_mem Row.chars hr))) hfuel)
    have hmapArgs : (args.map ofRow).map Operand.chars = args.map Row.chars ∧
        (args.map ofRow).map Operand.expr = args.map Row.expr := by
      constructor <;> rw [List.map_map] <;> rfl
    have hmapFilter : (filter.map ofRow).map Operand.chars = filter.map Row.chars ∧
        (filter.map ofRow).map Operand.expr = filter.map Row.expr := by
      constructor <;> rw [Option.map_map] <;> rfl
    rw [← hmapArgs.1, ← hmapFilter.1] at hcovers
    have hread := @Input.yields_readCall inp Rel _ t qualifier name hname _ hargsRead _ hfilterRead span hcovers
    rwa [hmapArgs.2, hmapFilter.2] at hread

end Call

theorem splitAt_calls {inp : Input} {start : Nat} {rest : List Char} {calls : List Operand} (hne : calls ≠ [])
    (hcalls : ∀ a ∈ calls, a.ReadsCall Rel)
    (h : inp.src.From start (List.intercalate ['.'] (calls.map Operand.chars) ++ rest))
    (hrest : ∀ bracket ∈ ["(", "["], ¬ bracket.toList <+: rest) :
    List.Forall₂ (fun span a => Input.Covers inp span a.chars)
      (inp.splitAt ⟨start, start + byteCount (List.intercalate ['.'] (calls.map Operand.chars))⟩ ".") calls := by
  have hpoint : ".".toList = ['.'] := rfl
  have hundotted : ∀ cs ∈ calls.map Operand.chars, Matched (· != '.') cs := by
    intro cs hcs
    obtain ⟨a, ha, rfl⟩ := List.mem_map.mp hcs
    exact (hcalls a ha).undotted
  have hspans := @Input.covers_splitAt inp rest "." '.' hpoint (by simp) [] nofun (calls.map Operand.chars)
    (by simpa using hne) hundotted start h hrest
  rwa [List.forall₂_map_right_iff] at hspans

/-- A call that is no word of a literal is read as the call. -/
theorem ReadsCall.reads (h : a.ReadsCall Rel) (hword : String.ofList a.chars ∉ Literal.words) : a.Reads Rel := by
  refine ⟨.core h.core, fun {inp fuel t start rest} hfrom hrest hfuel => ?_⟩
  obtain ⟨c, hhead, hc⟩ := h.head
  have hnone : Literal.read? (String.ofList a.chars) = none :=
    Literal.read?_of_name hword (by rwa [String.toList_ofList]) hc
  have hspans := @splitAt_calls Rel inp start rest [a] (List.cons_ne_nil _ _) (by simpa using h)
    (by simpa using hfrom) hrest
  rw [List.map_singleton, List.intercalate_singleton] at hspans
  rw [Input.readOperand_name hfrom hhead hc hnone]
  cases hsplit : inp.splitAt ⟨start, start + byteCount a.chars⟩ "." with
  | nil =>
    rw [hsplit] at hspans
    cases hspans
  | cons span spans =>
    rw [hsplit] at hspans
    cases hspans with
    | cons _ hspans =>
      cases hspans
      exact h.yields ⟨[], [], rest, nofun, nofun, hfrom, rfl, hrest⟩ hfuel

theorem isCore_append {xs ys zs : List Char} (hxs : Input.IsCore xs) (hys : Input.IsCore ys)
    (hzs : Matched Input.isQuiet zs) : Input.IsCore (xs ++ zs ++ ys) := by
  obtain ⟨c, hhead, hc⟩ := hxs.head
  obtain ⟨d, hlast, hd⟩ := hys.last
  refine ⟨(hxs.matched.append hzs).append hys.matched, ⟨c, ?_, hc⟩, ⟨d, ?_, hd⟩⟩
  · simp [List.head?_append, hhead]
  · simp [List.getLast?_append, hlast]

theorem isCore_intercalate {separator : List Char} (hseparator : Matched Input.isQuiet separator)
    {parts : List (List Char)} (hne : parts ≠ []) (h : ∀ part ∈ parts, Input.IsCore part) :
    Input.IsCore (List.intercalate separator parts) := by
  induction parts with
  | nil => exact absurd rfl hne
  | cons part parts ih =>
    obtain ⟨hpart, hparts⟩ := List.forall_mem_cons.mp h
    cases parts with
    | nil => rwa [List.intercalate_singleton]
    | cons next parts =>
      rw [List.intercalate_cons_cons]
      exact isCore_append hpart (ih (List.cons_ne_nil _ _) hparts) hseparator

/-- Calls with points between them are read as a chain. -/
theorem reads_chain {calls : List Operand} (hcalls : ∀ a ∈ calls, a.ReadsCall Rel) (hlength : 2 ≤ calls.length) :
    Operand.Reads Rel ⟨List.intercalate ['.'] (calls.map Operand.chars), .chain (calls.map Operand.expr)⟩ := by
  obtain ⟨first, second, more, rfl⟩ : ∃ a b l, calls = a :: b :: l := by
    match calls with
    | a :: b :: l => exact ⟨a, b, l, rfl⟩
  have hcores : ∀ cs ∈ (first :: second :: more).map Operand.chars, Input.IsCore cs := by
    intro cs hcs
    obtain ⟨a, ha, rfl⟩ := List.mem_map.mp hcs
    exact (hcalls a ha).core
  refine ⟨.core (isCore_intercalate (.of_plain (by decide)) (by simp) hcores),
    fun {inp fuel t start rest} hfrom hrest hfuel => ?_⟩
  dsimp only at hfrom hfuel ⊢
  obtain ⟨c, hhead, hc⟩ := (hcalls first (by simp)).head
  have hjoined : List.intercalate ['.'] ((first :: second :: more).map Operand.chars) =
      first.chars ++ ['.'] ++ List.intercalate ['.'] ((second :: more).map Operand.chars) := by
    rw [List.map_cons, List.map_cons, List.intercalate_cons_cons]
  have hwhole : (List.intercalate ['.'] ((first :: second :: more).map Operand.chars)).head? = some c := by
    simp [List.head?_append, hhead]
  have hword : String.ofList (List.intercalate ['.'] ((first :: second :: more).map Operand.chars)) ∉
      Literal.words := by
    have hpoints : ∀ word ∈ Literal.words, '.' ∉ word.toList := by decide
    intro hmem
    refine hpoints _ hmem ?_
    rw [String.toList_ofList, hjoined]
    simp
  have hnone := Literal.read?_of_name hword (by rwa [String.toList_ofList]) hc
  have hspans := splitAt_calls (List.cons_ne_nil _ _) hcalls hfrom hrest
  have hread : List.Forall₂ (fun span e => ∀ u, Attempt.Yields u (fun v id => v.StandsFor Rel e id)
      (inp.readCall (inp.readNested fuel) span))
      (inp.splitAt ⟨start, start + byteCount (List.intercalate ['.'] ((first :: second :: more).map Operand.chars))⟩ ".")
      ((first :: second :: more).map Operand.expr) := by
    rw [List.forall₂_map_right_iff]
    refine Input.forall₂_imp_of_mem hspans fun span a ha hcovers u => (hcalls a ha).yields hcovers ?_
    exact Nat.le_trans (Input.byteCount_le_intercalate ['.'] (List.mem_map_of_mem ha)) hfuel
  rw [Input.readOperand_name hfrom hwhole hc hnone]
  cases hsplit : inp.splitAt ⟨start,
      start + byteCount (List.intercalate ['.'] ((first :: second :: more).map Operand.chars))⟩ "." with
  | nil =>
    rw [hsplit] at hspans
    cases hspans
  | cons span spans =>
    cases spans with
    | nil =>
      rw [hsplit] at hspans
      cases hspans with
      | cons _ hspans => cases hspans
    | cons span' spans =>
      rw [hsplit] at hread
      refine (Attempt.Yields.mapM_standsFor hread).bind fun u is _ his => ?_
      exact Attempt.Yields.node fun v id hv hkind hlt => ⟨is, hkind, Tree.standsForAll_of_forall₂ hv his hlt⟩

end Operand

end ModelText.Template
