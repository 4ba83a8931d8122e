import ModelText.Proofs.Template.Syntax

/-!
# Trees built again inside larger ones

The same steps, taken on a draft that already has nodes, add the same nodes with higher indices. So what
a tree shows at a node, the larger tree shows at the node moved up.
-/

namespace ModelText.Template

/-- A node of an expression, with the nodes that it is made of moved up. -/
def NodeKind.up (distance : Nat) : NodeKind → NodeKind
  | .negation operand => .negation (distance + operand)
  | .operation operator operands => .operation operator (operands.map (distance + ·))
  | .parenthesis inner => .parenthesis (distance + inner)
  | .call qualifier name filter args =>
    .call qualifier name (filter.map (distance + ·)) (args.map (distance + ·))
  | .chain calls => .chain (calls.map (distance + ·))
  | kind => kind

namespace Tree

variable {t u : Tree} {distance : Nat}

/-- The nodes of a tree stand in another one, moved up. -/
def Carries (distance : Nat) (t u : Tree) : Prop :=
  ∀ id kind, t.kind? id = some kind → u.kind? (distance + id) = some (kind.up distance)

mutual

theorem Carries.showsExpr (h : Carries distance t u) {e : Expr} {id : NodeId}
    (he : t.ShowsExpr e id) : u.ShowsExpr e (distance + id) := by
  match e with
  | .literal value =>
    obtain ⟨own, hkind, hwrite⟩ := he
    exact ⟨own, h id _ hkind, hwrite⟩
  | .negation e =>
    obtain ⟨i, hi, hkind, he⟩ := he
    exact ⟨distance + i, Nat.add_lt_add_left hi _, h id _ hkind, h.showsExpr he⟩
  | .operation operator es =>
    obtain ⟨is, hkind, hes⟩ := he
    exact ⟨_, h id _ hkind, h.showsExprs hes⟩
  | .parenthesis e =>
    obtain ⟨i, hi, hkind, he⟩ := he
    exact ⟨distance + i, Nat.add_lt_add_left hi _, h id _ hkind, h.showsExpr he⟩
  | .call qualifier name f es =>
    obtain ⟨g, is, hkind, hf, hes⟩ := he
    exact ⟨_, _, h id _ hkind, h.showsFilter hf, h.showsExprs hes⟩
  | .chain es =>
    obtain ⟨is, hkind, hes⟩ := he
    exact ⟨_, h id _ hkind, h.showsExprs hes⟩

theorem Carries.showsExprs (h : Carries distance t u) {es : List Expr} {is : List NodeId}
    {bound : NodeId} (hes : t.ShowsExprs es is bound) :
    u.ShowsExprs es (is.map (distance + ·)) (distance + bound) := by
  match es with
  | [] =>
    cases hes
    rfl
  | e :: es =>
    obtain ⟨i, hi, js, rfl, he, hes⟩ := hes
    exact ⟨distance + i, Nat.add_lt_add_left hi _, _, rfl, h.showsExpr he, h.showsExprs hes⟩

theorem Carries.showsFilter (h : Carries distance t u) {f : Option Expr} {g : Option NodeId}
    {bound : NodeId} (hf : t.ShowsFilter f g bound) :
    u.ShowsFilter f (g.map (distance + ·)) (distance + bound) := by
  match f with
  | none =>
    cases hf
    rfl
  | some e =>
    obtain ⟨i, hi, rfl, he⟩ := hf
    exact ⟨distance + i, Nat.add_lt_add_left hi _, rfl, h.showsExpr he⟩

end

/-! ## More nodes -/

theorem Extends.carries (h : t.Extends u) : Carries 0 t u := by
  intro id kind hkind
  have hup : kind.up 0 = kind := by cases kind <;> simp [NodeKind.up]
  rw [hup, Nat.zero_add, h.kind? hkind]

theorem Extends.showsExpr (h : t.Extends u) {e : Expr} {id : NodeId} (he : t.ShowsExpr e id) :
    u.ShowsExpr e id := by
  simpa using h.carries.showsExpr he

mutual

theorem Extends.showsStmt (h : t.Extends u) {s : Stmt} {id : NodeId} (hs : t.ShowsStmt s id) :
    u.ShowsStmt s id := by
  match s with
  | .text content => exact h.kind? hs
  | .comment content => exact h.kind? hs
  | .feature e =>
    obtain ⟨i, hi, hkind, he⟩ := hs
    exact ⟨i, hi, h.kind? hkind, h.showsExpr he⟩
  | .loop iterator body =>
    obtain ⟨i, hi, b, hb, hkind, he, htemplate, hbody⟩ := hs
    refine ⟨i, hi, b, hb, h.kind? hkind, h.showsExpr he, h.kind? htemplate, ?_⟩
    rw [h.children htemplate]
    exact h.showsStmts hbody
  | .branch condition body rest =>
    obtain ⟨c, hc, b, hb, elseIfs, otherwise, hkind, he, htemplate, hbody, hrest⟩ := hs
    refine ⟨c, hc, b, hb, elseIfs, otherwise, h.kind? hkind, h.showsExpr he, h.kind? htemplate, ?_,
      h.showsBranches hrest⟩
    rw [h.children htemplate]
    exact h.showsStmts hbody

theorem Extends.showsStmts (h : t.Extends u) {body : Body} {is : List NodeId} {bound : NodeId}
    (hbody : t.ShowsStmts body is bound) : u.ShowsStmts body is bound := by
  match body with
  | .nil => exact hbody
  | .cons first rest =>
    obtain ⟨i, hi, js, his, hfirst, hrest⟩ := hbody
    exact ⟨i, hi, js, his, h.showsStmt hfirst, h.showsStmts hrest⟩

theorem Extends.showsBranches (h : t.Extends u) {rest : Branches}
    {elseIfs : List (NodeId × NodeId)} {otherwise : Option NodeId} {bound : NodeId}
    (hrest : t.ShowsBranches rest elseIfs otherwise bound) :
    u.ShowsBranches rest elseIfs otherwise bound := by
  match rest with
  | .done => exact hrest
  | .otherwise body =>
    obtain ⟨b, hb, helseIfs, hotherwise, htemplate, hbody⟩ := hrest
    refine ⟨b, hb, helseIfs, hotherwise, h.kind? htemplate, ?_⟩
    rw [h.children htemplate]
    exact h.showsStmts hbody
  | .elseIf condition body rest =>
    obtain ⟨c, hc, b, hb, more, helseIfs, he, htemplate, hbody, hrest⟩ := hrest
    refine ⟨c, hc, b, hb, more, helseIfs, h.showsExpr he, h.kind? htemplate, ?_,
      h.showsBranches hrest⟩
    rw [h.children htemplate]
    exact h.showsStmts hbody

end

theorem Extends.showsBody (h : t.Extends u) {body : Body} {id : NodeId}
    (hbody : t.ShowsBody body id) : u.ShowsBody body id := by
  refine ⟨h.kind? hbody.1, ?_⟩
  rw [h.children hbody.1]
  exact h.showsStmts hbody.2

end Tree

/-! ## Steps side by side -/

/-- A draft that started with `distance` nodes holds what another one holds that started empty. -/
structure Draft.Carries (distance : Nat) (d e : Draft) : Prop where
  size : e.tree.size = distance + d.tree.size
  nodes : Tree.Carries distance d.tree e.tree

/-- When `x` does not give up, it answers what `Q` tells, and `y` does the same on a larger draft and
answers what `see` makes of the answer. -/
def Attempt.Mirrors (distance : Nat) {α : Type} (see : α → α) (Q : α → Prop) (x y : Attempt α) :
    Prop :=
  ∀ d e, Draft.Carries distance d e → ∀ a d', x.run d = (.ok a, d') →
    Q a ∧ ∃ e', y.run e = (.ok (see a), e') ∧ Draft.Carries distance d' e' ∧
      e.tree.Extends e'.tree ∧ e'.diagnostics = e.diagnostics

theorem Build.bind_apply {α β : Type} (x : Build α) (f : α → Build β) (d : Draft) :
    (x >>= f) d = f (x d).1 (x d).2 := rfl

namespace Attempt

variable {α β : Type} {x : Attempt α} {f : α → Attempt β} {d d' : Draft}

theorem run_bind_ok {a : α} (h : x.run d = (.ok a, d')) : (x >>= f).run d = (f a).run d' := by
  rw [ExceptT.run_bind, Build.bind_apply, h]

theorem run_bind_error {diagnostic : Diagnostic} (h : x.run d = (.error diagnostic, d')) :
    (x >>= f).run d = (.error diagnostic, d') := by
  rw [ExceptT.run_bind, Build.bind_apply, h]
  rfl

end Attempt

namespace Attempt.Mirrors

variable {distance : Nat} {α β : Type} {see : α → α} {Q : α → Prop} {seeToo : β → β} {R : β → Prop}

theorem pure {a : α} (h : Q a) : Mirrors distance see Q (Pure.pure a) (Pure.pure (see a)) := by
  intro d e hcarries a' d' hrun
  cases hrun
  exact ⟨h, e, rfl, hcarries, .refl _, rfl⟩

/-- What gives up is mirrored by anything. -/
theorem throw (diagnostic : Diagnostic) (y : Attempt α) :
    Mirrors distance see Q (MonadExcept.throw diagnostic) y := by
  intro d e hcarries a d' hrun
  cases hrun

theorem bind {x y : Attempt α} {f g : α → Attempt β} (h : Mirrors distance see Q x y)
    (h' : ∀ a, Q a → Mirrors distance seeToo R (f a) (g (see a))) :
    Mirrors distance seeToo R (x >>= f) (y >>= g) := by
  intro d e hcarries b d'' hrun
  cases hresult : x.run d with
  | mk result d' =>
    cases result with
    | error diagnostic =>
      rw [run_bind_error hresult] at hrun
      cases hrun
    | ok a =>
      rw [run_bind_ok hresult] at hrun
      obtain ⟨hQ, e', hy, hcarries', hextends, hdiagnostics⟩ := h d e hcarries a d' hresult
      obtain ⟨hR, e'', hy', hcarries'', hextends', hdiagnostics'⟩ :=
        h' a hQ d' e' hcarries' b d'' hrun
      rw [run_bind_ok hy]
      exact ⟨hR, e'', hy', hcarries'', hextends.trans hextends', hdiagnostics'.trans hdiagnostics⟩

/-- The nodes added do not have to have the same children: only what they are counts. -/
theorem node {kind kind' : NodeKind} (hkind : kind' = kind.up distance) (span span' : Span)
    (children children' : List NodeId) :
    Mirrors distance (distance + ·) (fun _ => True) (Build.node kind span children : Attempt NodeId)
      (Build.node kind' span' children' : Attempt NodeId) := by
  intro d e hcarries id d' hrun
  cases hrun
  have hsize := hcarries.size
  refine ⟨trivial, { e with tree := e.tree.push kind' span' children' }, ?_, ⟨?_, ?_⟩,
    e.tree.extends_push _ _ _, rfl⟩
  · dsimp only
    rw [← hsize]
    rfl
  · simp only [Tree.size_push, hsize, Nat.add_assoc]
  · intro id own hown
    rw [Tree.kind?_push] at hown ⊢
    split at hown
    · next heq =>
      cases hown
      rw [if_pos (by rw [hsize, heq]), hkind]
    · next hne =>
      rw [if_neg (by rw [hsize]; exact fun heq => hne (Nat.add_left_cancel heq))]
      exact hcarries.nodes id own hown

theorem mapM {γ : Type} {move : γ → γ} {x y : γ → Attempt α} {l : List γ}
    (h : ∀ c ∈ l, Mirrors distance see Q (x c) (y (move c))) :
    Mirrors distance (List.map see) (fun _ => True) (l.mapM x) ((l.map move).mapM y) := by
  induction l with
  | nil => exact pure trivial
  | cons c rest ih =>
    obtain ⟨hc, hrest⟩ := List.forall_mem_cons.mp h
    rw [List.map_cons, List.mapM_cons, List.mapM_cons]
    refine bind hc fun a _ => bind (ih hrest) fun as _ => ?_
    exact pure (a := a :: as) trivial

end Attempt.Mirrors

end ModelText.Template
