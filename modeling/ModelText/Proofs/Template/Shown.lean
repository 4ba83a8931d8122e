import ModelText.Proofs.Template.CallTexts

/-!
# What is read shows an expression

Whenever the reader of expressions does not give up, its answer is a node that shows an expression, put
together as the printer expects it.
-/

namespace ModelText.Template

open Source

/-- When an attempt succeeds, it adds nodes and answers what `Q` tells. -/
abbrev Attempt.Answers {α : Type} (t : Tree) (Q : Tree → α → Prop) (x : Attempt α) : Prop :=
  Build.Adds (fun _ _ => True) t (fun u result => ∀ a, result = .ok a → Q u a) x.run

namespace Attempt.Answers

variable {α β : Type} {t : Tree} {Q : Tree → α → Prop} {R : Tree → β → Prop}

theorem law : Law fun _ _ => True := ⟨fun _ => trivial, fun _ _ => trivial⟩

theorem pure {a : α} (h : ∀ u, t.Extends u → Q u a) : Answers t Q (Pure.pure a) :=
  Build.adds_pure law fun u hu b hb => by
    cases hb
    exact h u hu

theorem throw (diagnostic : Diagnostic) : Answers t Q (MonadExcept.throw diagnostic) :=
  Build.adds_pure law fun _ _ _ hb => nomatch hb

theorem bind {x : Attempt α} {f : α → Attempt β} (h : Answers t Q x)
    (h' : ∀ u a, t.Extends u → Q u a → Answers u R (f a)) : Answers t R (x >>= f) := by
  unfold Answers
  rw [ExceptT.run_bind]
  refine Build.adds_bind law h fun u result hu hresult => ?_
  cases result with
  | ok a => exact h' u a hu (hresult a rfl)
  | error diagnostic => exact throw diagnostic

/-- A node above nodes that were there before shows an expression. -/
theorem showing {kind : NodeKind} {span : Span} {children : List NodeId} {P : Expr → Prop}
    (h : ∀ u id, t.Extends u → u.kind? id = some kind → (∀ i kind', t.kind? i = some kind' → i < id) →
      ∃ e, u.ShowsExpr e id ∧ P e) :
    Answers t (fun u id => ∃ e, u.ShowsExpr e id ∧ P e) (Build.node kind span children : Attempt NodeId) := by
  intro d hd
  refine ⟨d.tree.extends_push kind span children, trivial, fun id hid => ?_⟩
  cases hid
  refine h _ _ (hd.trans (d.tree.extends_push kind span children)) ?_ fun i kind' hold => ?_
  · exact (d.tree.kind?_push kind span children d.tree.size).trans (if_pos rfl)
  · exact Tree.lt_size_of_kind? (hd.kind? hold)

/-- The members of a list are read as expressions. -/
theorem mapM {f : β → Attempt NodeId} {P : Expr → Prop}
    (h : ∀ b u, Answers u (fun v id => ∃ e, v.ShowsExpr e id ∧ P e) (f b)) (l : List β) :
    Answers t (fun u is => ∃ es, List.Forall₂ (fun e i => u.ShowsExpr e i) es is ∧ (∀ e ∈ es, P e) ∧
      es.length = l.length) (l.mapM f) := by
  induction l generalizing t with
  | nil => exact pure fun _ _ => ⟨[], .nil, nofun, rfl⟩
  | cons b l ih =>
    rw [List.mapM_cons]
    refine (h b t).bind fun u i _ hi => (@ih u).bind fun v is hv his => pure fun w hw => ?_
    obtain ⟨e, he, hP⟩ := hi
    obtain ⟨es, hes, hall, hlength⟩ := his
    refine ⟨e :: es, .cons ((hv.trans hw).showsExpr he) (hes.imp fun _ _ h => hw.showsExpr h), ?_, ?_⟩
    · exact List.forall_mem_cons.mpr ⟨hP, hall⟩
    · rw [List.length_cons, hlength, List.length_cons]

end Attempt.Answers

/-! ## Expressions that are read -/

namespace Expr

def IsCall : Expr → Prop
  | .call _ _ _ _ => True
  | _ => False

/-- Operations have operands, calls have names, and what stands in a chain are at least two calls. -/
def WellMade : Expr → Prop
  | .operation _ es => es ≠ []
  | .call _ name _ _ => Input.IsCallName name
  | .chain es => 2 ≤ es.length ∧ ∀ e ∈ es, e.IsCall
  | _ => True

theorem all_call {p : Expr → Prop} {qualifier : Option Qualifier} {name : String} {f : Option Expr}
    {es : List Expr} : (Expr.call qualifier name f es).All p ↔
      p (.call qualifier name f es) ∧ (∀ e ∈ f, e.All p) ∧ ∀ e ∈ es, e.All p := by
  rw [All, allOf_iff]
  cases f with
  | none => simp [AllOfFilter]
  | some e => simp [AllOfFilter]

end Expr

namespace Input

variable (inp : Input) {t : Tree}

/-- A reader answers expressions that are well made. -/
def AnswersExprs (read : Span → Attempt NodeId) : Prop :=
  ∀ limits t, Attempt.Answers t (fun u id => ∃ e, u.ShowsExpr e id ∧ e.All Expr.WellMade) (read limits)

section Readers

variable {read : Span → Attempt NodeId} (hread : AnswersExprs read)

include hread

theorem answers_readArgs (cursor : Nat) (span : Span) :
    Attempt.Answers t (fun u found => ∃ es, List.Forall₂ (fun e i => u.ShowsExpr e i) es found.1 ∧
      ∀ e ∈ es, e.All Expr.WellMade) (inp.readArgs read cursor span) := by
  unfold readArgs
  split
  · exact .throw _
  · exact .pure fun _ _ => ⟨[], .nil, nofun⟩
  split
  · exact .pure fun _ _ => ⟨[], .nil, nofun⟩
  · refine (Attempt.Answers.mapM hread _).bind fun u is _ his => .pure fun v hv => ?_
    obtain ⟨es, hes, hall, -⟩ := his
    exact ⟨es, hes.imp fun _ _ h => hv.showsExpr h, hall⟩

theorem answers_readFilter (cursor : Nat) (span : Span) :
    Attempt.Answers t (fun u found => ∃ f, Option.Rel (fun e i => u.ShowsExpr e i) f found.1 ∧
      ∀ e ∈ f, e.All Expr.WellMade) (inp.readFilter read cursor span) := by
  unfold readFilter
  split
  · exact .throw _
  · exact .pure fun _ _ => ⟨none, .none, nofun⟩
  · refine (hread _ t).bind fun u i _ hi => .pure fun v hv => ?_
    obtain ⟨e, he, hall⟩ := hi
    refine ⟨some e, .some (hv.showsExpr he), ?_⟩
    rintro d ⟨⟩
    exact hall

theorem answers_readCall (limits : Span) (t : Tree) :
    Attempt.Answers t (fun u id => ∃ e, u.ShowsExpr e id ∧ e.All Expr.WellMade ∧ e.IsCall)
      (inp.readCall read limits) := by
  unfold readCall
  extract_lets span invalid
  split
  · exact .throw _
  next qualifier nameStart _ =>
    extract_lets text name
    split
    · exact .throw _
    next hname =>
      have hcall : IsCallName (String.ofList name) := by
        refine ⟨isName_nameOf _, fun heq => hname ?_⟩
        have hnil : name = [] := String.ofList_eq_empty_iff.mp heq
        rw [hnil]
        rfl
      refine (inp.answers_readArgs hread _ span).bind fun u found _ hargs => ?_
      obtain ⟨is, cursor⟩ := found
      obtain ⟨es, hes, hall⟩ := hargs
      refine (inp.answers_readFilter hread _ span).bind fun v found hv hfilter => ?_
      obtain ⟨g, cursor⟩ := found
      obtain ⟨f, hf, hfall⟩ := hfilter
      dsimp only
      split
      · exact .throw _
      · refine Attempt.Answers.showing fun w id hw hkind hlt => ?_
        refine ⟨.call qualifier (String.ofList name) f es, ⟨g, is, hkind, Tree.showsFilter_of_rel hw hf hlt, ?_⟩, ?_, trivial⟩
        · exact Tree.showsExprs_of_forall₂ hw (hes.imp fun _ _ h => hv.showsExpr h) hlt
        · exact Expr.all_call.mpr ⟨hcall, hfall, hall⟩

theorem answers_readOperand (span : Span) (t : Tree) :
    Attempt.Answers t (fun u id => ∃ e, u.ShowsExpr e id ∧ e.All Expr.WellMade) (inp.readOperand read span) := by
  have hcall (limits : Span) (t : Tree) :
      Attempt.Answers t (fun u id => ∃ e, u.ShowsExpr e id ∧ e.All Expr.WellMade) (inp.readCall read limits) :=
    (inp.answers_readCall hread limits t).mono fun u result _ hresult id hid => by
      obtain ⟨e, he, hall, -⟩ := hresult id hid
      exact ⟨e, he, hall⟩
  unfold readOperand
  extract_lets text rest
  split
  · refine (hread _ t).bind fun u i _ hi => Attempt.Answers.showing fun v id hv hkind hlt => ?_
    obtain ⟨e, he, hall⟩ := hi
    obtain ⟨kind, hold⟩ := Tree.exists_kind_of_showsExpr he
    exact ⟨.negation e, ⟨i, hlt i kind hold, hkind, hv.showsExpr he⟩, trivial, hall⟩
  split
  · next value _ => exact Attempt.Answers.showing fun u id _ hkind _ => ⟨.literal value, ⟨value, hkind, rfl⟩, trivial⟩
  split
  · -- The sign makes a difference to a zero that the text does not hold.
    have hnothing : Attempt.Answers t (fun u id => ∃ e, u.ShowsExpr e id ∧ e = .literal (.int 0))
        (Build.node (.literal (.int 0)) (Span.point span.start) [] : Attempt NodeId) :=
      .showing fun u id _ hkind _ => ⟨.literal (.int 0), ⟨.int 0, hkind, rfl⟩, rfl⟩
    refine hnothing.bind fun u nothing _ hnothing => (hread _ u).bind fun v i hv hi =>
      Attempt.Answers.showing fun w id hw hkind hlt => ?_
    obtain ⟨_, hnothing, rfl⟩ := hnothing
    obtain ⟨e, he, hall⟩ := hi
    refine ⟨.operation .subtract [.literal (.int 0), e], ⟨[nothing, i], hkind, ?_⟩, ?_, trivial, hall, trivial⟩
    · exact Tree.showsExprs_of_forall₂ hw (.cons (hv.showsExpr hnothing) (.cons he .nil)) hlt
    · exact List.cons_ne_nil _ _
  split
  · refine (hread _ t).bind fun u i _ hi => Attempt.Answers.showing fun v id hv hkind hlt => ?_
    obtain ⟨e, he, hall⟩ := hi
    obtain ⟨kind, hold⟩ := Tree.exists_kind_of_showsExpr he
    exact ⟨.parenthesis e, ⟨i, hlt i kind hold, hkind, hv.showsExpr he⟩, trivial, hall⟩
  split
  · exact hcall _ t
  · exact hcall _ t
  · next hne hne' =>
    refine (Attempt.Answers.mapM (inp.answers_readCall hread) _).bind fun u is _ his =>
      Attempt.Answers.showing fun v id hv hkind hlt => ?_
    obtain ⟨es, hes, hall, hlength⟩ := his
    refine ⟨.chain es, ⟨is, hkind, Tree.showsExprs_of_forall₂ hv hes hlt⟩, ⟨?_, fun e he => (hall e he).2⟩, ?_⟩
    · rw [hlength]
      cases hparts : inp.splitAt span "." with
      | nil => exact absurd hparts hne
      | cons part parts =>
        cases parts with
        | nil => exact absurd hparts (hne' part)
        | cons part' parts => exact Nat.le_add_left 2 _
    · exact Expr.allOf_iff.mpr fun e he => (hall e he).1

end Readers

theorem piecesAround_ne_nil (start stop : Nat) (separators : List Span) :
    piecesAround start stop separators ≠ [] := by
  cases separators <;> exact List.cons_ne_nil _ _

theorem parts_ne_nil {inp : Input} {span : Span} {operator : Operator} {parts : List Span}
    (h : inp.split? span = some (operator, parts)) : parts ≠ [] := by
  obtain ⟨level, -, hlevel⟩ := List.exists_of_findSome?_eq_some h
  obtain ⟨last, -, hlast⟩ := Option.map_eq_some_iff.mp hlevel
  rw [← show _ = parts from congrArg Prod.snd hlast]
  dsimp only
  split <;> exact piecesAround_ne_nil _ _ _

/-- What the reader of expressions answers shows an expression. -/
theorem answers_readNested (fuel : Nat) : AnswersExprs (inp.readNested fuel) := by
  induction fuel with
  | zero => exact fun _ _ => .throw _
  | succ fuel ih =>
    intro limits t
    unfold readNested
    extract_lets span
    split
    · exact .throw _
    split
    · next operator parts hsplit =>
      refine (Attempt.Answers.mapM ih parts).bind fun u is _ his =>
        Attempt.Answers.showing fun v id hv hkind hlt => ?_
      obtain ⟨es, hes, hall, hlength⟩ := his
      refine ⟨.operation operator es, ⟨is, hkind, Tree.showsExprs_of_forall₂ hv hes hlt⟩, ?_,
        Expr.allOf_iff.mpr hall⟩
      rintro rfl
      exact parts_ne_nil hsplit (List.length_eq_zero_iff.mp hlength.symm)
    · exact inp.answers_readOperand ih span t

end Input

end ModelText.Template
