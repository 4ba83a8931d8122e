import Mathlib.Data.List.Forall2
import ModelText.Proofs.Template.Mirrored

/-!
# What nodes stand for

The nodes of a tree compared with an expression, where it is left open how their literals compare. A node
shows an expression when the literals are written alike. It stands for exactly that expression when they are
the same.
-/

namespace ModelText.Template

namespace Tree

variable (t : Tree) (Rel : Literal → Literal → Prop)

mutual

/-- The node stands for an expression up to a relation between literals, through nodes with smaller indices. -/
def StandsFor : Expr → NodeId → Prop
  | .literal value, id => ∃ own, t.kind? id = some (.literal own) ∧ Rel own value
  | .negation e, id => ∃ i < id, t.kind? id = some (.negation i) ∧ StandsFor e i
  | .operation operator es, id =>
    ∃ is, t.kind? id = some (.operation operator is) ∧ StandsForAll es is id
  | .parenthesis e, id => ∃ i < id, t.kind? id = some (.parenthesis i) ∧ StandsFor e i
  | .call qualifier name f es, id =>
    ∃ g is, t.kind? id = some (.call qualifier name g is) ∧ StandsForFilter f g id ∧ StandsForAll es is id
  | .chain es, id => ∃ is, t.kind? id = some (.chain is) ∧ StandsForAll es is id

/-- The nodes of a list, all below a bound, stand for the expressions of another one. -/
def StandsForAll : List Expr → List NodeId → NodeId → Prop
  | [], is, _ => is = []
  | e :: es, is, bound => ∃ i < bound, ∃ js, is = i :: js ∧ StandsFor e i ∧ StandsForAll es js bound

def StandsForFilter : Option Expr → Option NodeId → NodeId → Prop
  | none, g, _ => g = none
  | some e, g, bound => ∃ i < bound, g = some i ∧ StandsFor e i

end

variable {t : Tree} {Rel Rel' : Literal → Literal → Prop} {u : Tree}

theorem exists_kind_of_standsFor {e : Expr} {id : NodeId} (h : t.StandsFor Rel e id) :
    ∃ kind, t.kind? id = some kind := by
  cases e with
  | literal value => exact ⟨_, h.choose_spec.1⟩
  | negation e => exact ⟨_, h.choose_spec.2.1⟩
  | operation operator es => exact ⟨_, h.choose_spec.1⟩
  | parenthesis e => exact ⟨_, h.choose_spec.2.1⟩
  | call qualifier name f es => exact ⟨_, h.choose_spec.choose_spec.1⟩
  | chain es => exact ⟨_, h.choose_spec.1⟩

/-! ## More nodes and coarser relations -/

mutual

theorem StandsFor.mono (hu : t.Extends u) (hrel : ∀ own value, Rel own value → Rel' own value) {e : Expr}
    {id : NodeId} (h : t.StandsFor Rel e id) : u.StandsFor Rel' e id := by
  match e with
  | .literal value =>
    obtain ⟨own, hkind, hown⟩ := h
    exact ⟨own, hu.kind? hkind, hrel own value hown⟩
  | .negation e =>
    obtain ⟨i, hi, hkind, he⟩ := h
    exact ⟨i, hi, hu.kind? hkind, StandsFor.mono hu hrel he⟩
  | .operation operator es =>
    obtain ⟨is, hkind, hes⟩ := h
    exact ⟨is, hu.kind? hkind, StandsForAll.mono hu hrel hes⟩
  | .parenthesis e =>
    obtain ⟨i, hi, hkind, he⟩ := h
    exact ⟨i, hi, hu.kind? hkind, StandsFor.mono hu hrel he⟩
  | .call qualifier name f es =>
    obtain ⟨g, is, hkind, hf, hes⟩ := h
    exact ⟨g, is, hu.kind? hkind, StandsForFilter.mono hu hrel hf, StandsForAll.mono hu hrel hes⟩
  | .chain es =>
    obtain ⟨is, hkind, hes⟩ := h
    exact ⟨is, hu.kind? hkind, StandsForAll.mono hu hrel hes⟩

theorem StandsForAll.mono (hu : t.Extends u) (hrel : ∀ own value, Rel own value → Rel' own value)
    {es : List Expr} {is : List NodeId} {bound : NodeId} (h : t.StandsForAll Rel es is bound) :
    u.StandsForAll Rel' es is bound := by
  match es with
  | [] =>
    cases h
    rfl
  | e :: es =>
    obtain ⟨i, hi, js, rfl, he, hes⟩ := h
    exact ⟨i, hi, js, rfl, StandsFor.mono hu hrel he, StandsForAll.mono hu hrel hes⟩

theorem StandsForFilter.mono (hu : t.Extends u) (hrel : ∀ own value, Rel own value → Rel' own value)
    {f : Option Expr} {g : Option NodeId} {bound : NodeId} (h : t.StandsForFilter Rel f g bound) :
    u.StandsForFilter Rel' f g bound := by
  match f with
  | none =>
    cases h
    rfl
  | some e =>
    obtain ⟨i, hi, rfl, he⟩ := h
    exact ⟨i, hi, rfl, StandsFor.mono hu hrel he⟩

end

theorem Extends.standsFor (hu : t.Extends u) {e : Expr} {id : NodeId} (h : t.StandsFor Rel e id) :
    u.StandsFor Rel e id := StandsFor.mono hu (fun _ _ hown => hown) h

theorem standsForAll_of_forall₂ (hu : t.Extends u) {es : List Expr} {is : List NodeId} {bound : NodeId}
    (h : List.Forall₂ (fun e i => t.StandsFor Rel e i) es is)
    (hlt : ∀ i kind, t.kind? i = some kind → i < bound) : u.StandsForAll Rel es is bound := by
  induction h with
  | nil => rfl
  | @cons e i es is he _ ih =>
    obtain ⟨kind, hkind⟩ := exists_kind_of_standsFor he
    exact ⟨i, hlt i kind hkind, is, rfl, hu.standsFor he, ih⟩

theorem standsForFilter_of_rel (hu : t.Extends u) {f : Option Expr} {g : Option NodeId} {bound : NodeId}
    (h : Option.Rel (fun e i => t.StandsFor Rel e i) f g)
    (hlt : ∀ i kind, t.kind? i = some kind → i < bound) : u.StandsForFilter Rel f g bound := by
  cases h with
  | none => rfl
  | @some e i he =>
    obtain ⟨kind, hkind⟩ := exists_kind_of_standsFor he
    exact ⟨i, hlt i kind hkind, rfl, hu.standsFor he⟩

/-! ## Literals that are written alike -/

/-- Two literals have the same written form. -/
def WrittenAlike (own value : Literal) : Prop := own.write = value.write

mutual

theorem showsExpr_iff {e : Expr} {id : NodeId} : t.ShowsExpr e id ↔ t.StandsFor WrittenAlike e id := by
  match e with
  | .literal value => exact Iff.rfl
  | .negation e | .parenthesis e => simp only [ShowsExpr, StandsFor, showsExpr_iff]
  | .operation operator es | .chain es => simp only [ShowsExpr, StandsFor, showsExprs_iff]
  | .call qualifier name f es => simp only [ShowsExpr, StandsFor, showsExprs_iff, showsFilter_iff]

theorem showsExprs_iff {es : List Expr} {is : List NodeId} {bound : NodeId} :
    t.ShowsExprs es is bound ↔ t.StandsForAll WrittenAlike es is bound := by
  match es with
  | [] => exact Iff.rfl
  | e :: es => simp only [ShowsExprs, StandsForAll, showsExpr_iff, showsExprs_iff]

theorem showsFilter_iff {f : Option Expr} {g : Option NodeId} {bound : NodeId} :
    t.ShowsFilter f g bound ↔ t.StandsForFilter WrittenAlike f g bound := by
  match f with
  | none => exact Iff.rfl
  | some e => simp only [ShowsFilter, StandsForFilter, showsExpr_iff]

end

theorem showsExprs_of_forall₂ (hu : t.Extends u) {es : List Expr} {is : List NodeId} {bound : NodeId}
    (h : List.Forall₂ (fun e i => t.ShowsExpr e i) es is)
    (hlt : ∀ i kind, t.kind? i = some kind → i < bound) : u.ShowsExprs es is bound :=
  showsExprs_iff.mpr (standsForAll_of_forall₂ hu (h.imp fun _ _ he => showsExpr_iff.mp he) hlt)

theorem showsFilter_of_rel (hu : t.Extends u) {f : Option Expr} {g : Option NodeId} {bound : NodeId}
    (h : Option.Rel (fun e i => t.ShowsExpr e i) f g)
    (hlt : ∀ i kind, t.kind? i = some kind → i < bound) : u.ShowsFilter f g bound := by
  refine showsFilter_iff.mpr (standsForFilter_of_rel hu ?_ hlt)
  cases h with
  | none => exact .none
  | some he => exact .some (showsExpr_iff.mp he)

/-- A node shows what it stands for exactly. -/
theorem showsExpr_of_standsFor {e : Expr} {id : NodeId} (h : t.StandsFor (· = ·) e id) : t.ShowsExpr e id :=
  showsExpr_iff.mpr (h.mono (.refl t) fun _ _ heq => congrArg Literal.write heq)

end Tree

end ModelText.Template
