import ModelText.Proofs.Template.Mirrored
import ModelText.Proofs.Template.Outlines

/-!
# Reading does not depend on what was read before

Readers add to a draft, yet what they report and where they go on depends on the text only. So what is read
without an error after some text is read without an error from the start as well.
-/

namespace ModelText.Template

/-! ## Drafts that grow alike -/

/-- The second draft holds the nodes of the first and further errors. -/
structure Draft.Gains (d e : Draft) (added : List Diagnostic) : Prop where
  grows : d.tree.Grows e.tree
  diagnostics : e.diagnostics.toList = d.diagnostics.toList ++ added
  errors : ∀ diagnostic ∈ added, diagnostic.isError = true

namespace Draft.Gains

variable {d e f : Draft} {added later : List Diagnostic}

theorem refl (d : Draft) : d.Gains d [] := ⟨.refl _, (List.append_nil _).symm, nofun⟩

theorem trans (h : d.Gains e added) (h' : e.Gains f later) : d.Gains f (added ++ later) :=
  ⟨h.grows.trans h'.grows, by rw [h'.diagnostics, h.diagnostics, List.append_assoc],
    List.forall_mem_append.mpr ⟨h.errors, h'.errors⟩⟩

end Draft.Gains

/-- Two readers do the same, whatever drafts with the nodes of `t` and `t'` they start from: they report the same
errors, and `R` relates what they answer, each with the tree that it leaves. -/
def Build.Uniform {α β : Type} (t t' : Tree) (R : List Diagnostic → Tree → α → Tree → β → Prop) (x : Build α)
    (y : Build β) : Prop :=
  ∀ d e : Draft, t.Grows d.tree → t'.Grows e.tree → ∃ added, d.Gains (x d).2 added ∧ e.Gains (y e).2 added ∧
    R added (x d).2.tree (x d).1 (y e).2.tree (y e).1

/-- It does not matter what is answered. -/
def Whatever {α β : Type} : List Diagnostic → Tree → α → Tree → β → Prop := fun _ _ _ _ _ => True

namespace Build.Uniform

variable {α β γ δ : Type} {t t' : Tree} {R R' : List Diagnostic → Tree → α → Tree → β → Prop}
  {S : List Diagnostic → Tree → γ → Tree → δ → Prop} {x : Build α} {y : Build β}

theorem pure {a : α} {b : β} (h : ∀ u v, t.Grows u → t'.Grows v → R [] u a v b) :
    Uniform t t' R (Pure.pure a) (Pure.pure b) :=
  fun d e hd he => ⟨[], .refl d, .refl e, h _ _ hd he⟩

theorem mono (h : Uniform t t' R x y)
    (h' : ∀ added u a v b, t.Grows u → R added u a v b → R' added u a v b) : Uniform t t' R' x y :=
  fun d e hd he => (h d e hd he).imp fun _ hall =>
    ⟨hall.1, hall.2.1, h' _ _ _ _ _ (hd.trans hall.1.grows) hall.2.2⟩

theorem bind {f : α → Build γ} {g : β → Build δ} (h : Uniform t t' R x y)
    (h' : ∀ added u a v b, t.Grows u → t'.Grows v → R added u a v b →
      Uniform u v (fun later => S (added ++ later)) (f a) (g b)) :
    Uniform t t' S (x >>= f) (y >>= g) := by
  intro d e hd he
  obtain ⟨added, hgains, hgains', hR⟩ := h d e hd he
  obtain ⟨later, hlater, hlater', hS⟩ := h' added _ _ _ _ (hd.trans hgains.grows) (he.trans hgains'.grows) hR
    (x d).2 (y e).2 (.refl _) (.refl _)
  exact ⟨added ++ later, hgains.trans hlater, hgains'.trans hlater', hS⟩

theorem ignore (h : Uniform t t' R x y) : Uniform t t' Whatever x y := h.mono fun _ _ _ _ _ _ _ => trivial

theorem get : Uniform t t' (fun added u d v e => added = [] ∧ d.tree = u ∧ e.tree = v) (get : Build Draft)
    (get : Build Draft) :=
  fun d e _ _ => ⟨[], .refl d, .refl e, rfl, rfl, rfl⟩

theorem report {diagnostic : Diagnostic} (herror : diagnostic.isError = true) :
    Uniform t t' (fun added _ _ _ _ => added ≠ []) (Build.report diagnostic) (Build.report diagnostic) := by
  have hgains (d : Draft) : d.Gains { d with diagnostics := d.diagnostics.push diagnostic } [diagnostic] :=
    ⟨.refl _, Array.toList_push .., List.forall_mem_singleton.mpr herror⟩
  exact fun d e _ _ => ⟨[diagnostic], hgains d, hgains e, List.cons_ne_nil _ _⟩

/-- The nodes added do not have to have the same children. -/
theorem node {kind kind' : NodeKind} {span : Span} {children children' : List NodeId} :
    Uniform t t' (fun added u a v b => added = [] ∧ u.unlinked? a = some { kind, span, children } ∧
      v.unlinked? b = some { kind := kind', span, children := children' })
      (Build.node kind span children) (Build.node kind' span children') := by
  have hgains (d : Draft) (kind : NodeKind) (children : List NodeId) :
      d.Gains { d with tree := d.tree.push kind span children } [] :=
    ⟨d.tree.grows_push kind span children, (List.append_nil _).symm, nofun⟩
  have hnode (t : Tree) (kind : NodeKind) (children : List NodeId) :
      (t.push kind span children).unlinked? t.size = some { kind, span, children } :=
    (t.unlinked?_push kind span children t.size).trans (if_pos rfl)
  exact fun d e _ _ => ⟨[], hgains d kind children, hgains e kind' children', rfl, hnode .., hnode ..⟩

end Build.Uniform

/-! ## Readers that may give up -/

/-- Two readers give up for the same reason, or `R` relates what they answer. -/
def Outcomes {α β : Type} (R : Tree → α → Tree → β → Prop) (added : List Diagnostic) (u : Tree)
    (a : Except Diagnostic α) (v : Tree) (b : Except Diagnostic β) : Prop :=
  added = [] ∧
    match a, b with
    | .ok a, .ok b => R u a v b
    | .error p, .error q => p = q ∧ p.isError = true
    | _, _ => False

def Attempt.Uniform {α β : Type} (t t' : Tree) (R : Tree → α → Tree → β → Prop) (x : Attempt α) (y : Attempt β) :
    Prop :=
  Build.Uniform t t' (Outcomes R) x.run y.run

namespace Attempt.Uniform

variable {α β γ δ : Type} {t t' : Tree} {R : Tree → α → Tree → β → Prop} {S : Tree → γ → Tree → δ → Prop}
  {x : Attempt α} {y : Attempt β}

theorem pure {a : α} {b : β} (h : ∀ u v, R u a v b) : Uniform t t' R (Pure.pure a) (Pure.pure b) :=
  Build.Uniform.pure fun u v _ _ => ⟨rfl, h u v⟩

theorem throw {diagnostic : Diagnostic} (h : diagnostic.isError = true) :
    Uniform t t' R (MonadExcept.throw diagnostic) (MonadExcept.throw diagnostic) :=
  Build.Uniform.pure fun _ _ _ _ => ⟨rfl, rfl, h⟩

theorem bind {f : α → Attempt γ} {g : β → Attempt δ} (h : Uniform t t' R x y)
    (h' : ∀ u a v b, R u a v b → Uniform u v S (f a) (g b)) : Uniform t t' S (x >>= f) (y >>= g) := by
  unfold Uniform
  rw [ExceptT.run_bind, ExceptT.run_bind]
  refine Build.Uniform.bind h fun added u a v b _ _ hR => ?_
  obtain ⟨rfl, hR⟩ := hR
  cases a with
  | ok a =>
    cases b with
    | ok b => exact h' u a v b hR
    | error q => exact hR.elim
  | error p =>
    cases b with
    | ok b => exact hR.elim
    | error q => exact Build.Uniform.pure fun _ _ _ _ => ⟨rfl, hR⟩

theorem node {kind kind' : NodeKind} {span : Span} {children children' : List NodeId} :
    Uniform t t' (fun u a v b => u.unlinked? a = some { kind, span, children } ∧
      v.unlinked? b = some { kind := kind', span, children := children' })
      (Build.node kind span children : Attempt NodeId) (Build.node kind' span children' : Attempt NodeId) :=
  fun d e hd he => Build.Uniform.node d e hd he

theorem mapM {ε : Type} {x : ε → Attempt α} {y : ε → Attempt β} {l : List ε}
    (h : ∀ u v, ∀ c ∈ l, Uniform u v R (x c) (y c)) : Uniform t t' (fun _ _ _ _ => True) (l.mapM x) (l.mapM y) := by
  induction l generalizing t t' with
  | nil => exact pure fun _ _ => trivial
  | cons c rest ih =>
    rw [List.mapM_cons, List.mapM_cons]
    refine bind (h t t' c List.mem_cons_self) fun _ _ _ _ _ => ?_
    refine bind (ih fun u v c hc => h u v c (List.mem_cons_of_mem _ hc)) fun _ _ _ _ _ => ?_
    exact pure fun _ _ => trivial

end Attempt.Uniform

/-! ## Expressions -/

/-- Two nodes of two trees are parentheses, or neither is. -/
def Tree.Alike (u : Tree) (a : NodeId) (v : Tree) (b : NodeId) : Prop :=
  ∃ n m, u.unlinked? a = some n ∧ v.unlinked? b = some m ∧
    (n.kind matches .parenthesis _) = (m.kind matches .parenthesis _)

namespace Input

variable {inp : Input} {t t' : Tree}

/-- Nodes of two kinds that are both parentheses, or are none, are alike. -/
theorem uniform_node {kind kind' : NodeKind} {span : Span} {children children' : List NodeId}
    (h : (kind matches .parenthesis _) = (kind' matches .parenthesis _)) :
    Attempt.Uniform t t' Tree.Alike (Build.node kind span children : Attempt NodeId)
      (Build.node kind' span children' : Attempt NodeId) :=
  Build.Uniform.mono Attempt.Uniform.node fun _ _ a _ b _ hR => by
    obtain ⟨rfl, hR⟩ := hR
    cases a with
    | ok a =>
      cases b with
      | ok b => exact ⟨rfl, _, _, hR.1, hR.2, h⟩
      | error q => exact hR.elim
    | error p =>
      cases b with
      | ok b => exact hR.elim
      | error q => exact ⟨rfl, hR⟩

section Reading

variable {read : Span → Attempt NodeId} (hread : ∀ u v limits, Attempt.Uniform u v Tree.Alike (read limits) (read limits))

theorem isError_of_bracketed {opener closer : String} {cursor : Nat} {span : Span} {diagnostic : Diagnostic}
    (h : inp.bracketed opener closer cursor span = .error diagnostic) : diagnostic.isError = true := by
  unfold bracketed at h
  split at h
  · split at h
    · cases h
    · cases h
      rfl
  · cases h

include hread

theorem uniform_readArgs (cursor : Nat) (span : Span) :
    Attempt.Uniform t t' (fun _ found _ found' => found.2 = found'.2) (inp.readArgs read cursor span)
      (inp.readArgs read cursor span) := by
  unfold readArgs
  split
  · next diagnostic hbracketed => exact Attempt.Uniform.throw (isError_of_bracketed hbracketed)
  · exact Attempt.Uniform.pure fun _ _ => rfl
  · split
    · exact Attempt.Uniform.pure fun _ _ => rfl
    · exact (Attempt.Uniform.mapM fun _ _ _ _ => hread _ _ _).bind fun _ _ _ _ _ => Attempt.Uniform.pure fun _ _ => rfl

theorem uniform_readFilter (cursor : Nat) (span : Span) :
    Attempt.Uniform t t' (fun _ found _ found' => found.2 = found'.2) (inp.readFilter read cursor span)
      (inp.readFilter read cursor span) := by
  unfold readFilter
  split
  · next diagnostic hbracketed => exact Attempt.Uniform.throw (isError_of_bracketed hbracketed)
  · exact Attempt.Uniform.pure fun _ _ => rfl
  · exact (hread _ _ _).bind fun _ _ _ _ _ => Attempt.Uniform.pure fun _ _ => rfl

theorem uniform_readCall (limits : Span) :
    Attempt.Uniform t t' Tree.Alike (inp.readCall read limits) (inp.readCall read limits) := by
  unfold readCall
  extract_lets span invalid
  split
  · exact Attempt.Uniform.throw rfl
  next qualifier nameStart _ =>
    extract_lets text name
    split
    · exact Attempt.Uniform.throw rfl
    refine (uniform_readArgs hread _ span).bind fun _ found _ found' hcursor => ?_
    obtain ⟨args, cursor⟩ := found
    obtain ⟨args', cursor'⟩ := found'
    obtain rfl : cursor = cursor' := hcursor
    refine (uniform_readFilter hread _ span).bind fun _ found _ found' hcursor => ?_
    obtain ⟨filter, cursor⟩ := found
    obtain ⟨filter', cursor'⟩ := found'
    obtain rfl : cursor = cursor' := hcursor
    dsimp only
    split
    · exact Attempt.Uniform.throw rfl
    · exact uniform_node rfl

theorem uniform_readOperand (span : Span) :
    Attempt.Uniform t t' Tree.Alike (inp.readOperand read span) (inp.readOperand read span) := by
  unfold readOperand
  extract_lets text rest
  split
  · exact (hread _ _ _).bind fun _ _ _ _ _ => uniform_node rfl
  split
  · exact uniform_node rfl
  split
  · exact Attempt.Uniform.node.bind fun _ _ _ _ _ => (hread _ _ _).bind fun _ _ _ _ _ => uniform_node rfl
  split
  · exact (hread _ _ _).bind fun _ _ _ _ _ => uniform_node rfl
  split
  · exact uniform_readCall hread _
  · exact uniform_readCall hread _
  · exact (Attempt.Uniform.mapM fun _ _ _ _ => uniform_readCall hread _).bind fun _ _ _ _ _ => uniform_node rfl

end Reading

theorem uniform_readNested (fuel : Nat) (limits : Span) :
    Attempt.Uniform t t' Tree.Alike (inp.readNested fuel limits) (inp.readNested fuel limits) := by
  induction fuel generalizing t t' limits with
  | zero => exact Attempt.Uniform.throw rfl
  | succ fuel ih =>
    unfold readNested
    extract_lets span
    split
    · exact Attempt.Uniform.throw rfl
    split
    · exact (Attempt.Uniform.mapM fun _ _ _ _ => ih _).bind fun _ _ _ _ _ => uniform_node rfl
    · exact uniform_readOperand (fun _ _ => ih) span

theorem Alike.grow {u v u' v' : Tree} {a b : NodeId} (h : u.Alike a v b) (hu : u.Grows u') (hv : v.Grows v') :
    u'.Alike a v' b := by
  obtain ⟨n, m, hn, hm, hkinds⟩ := h
  exact ⟨n, m, (hu.unlinked a (Tree.lt_size_of_unlinked? hn)).trans hn,
    (hv.unlinked b (Tree.lt_size_of_unlinked? hm)).trans hm, hkinds⟩

/-- An expression is read alike, or replaced for the same reason. -/
theorem uniform_readOrNull (limits : Span) :
    Build.Uniform t t' (fun _ => Tree.Alike) (inp.readOrNull limits) (inp.readOrNull limits) := by
  refine Build.Uniform.bind (uniform_readNested _ limits) fun added u a v b _ _ hR => ?_
  obtain ⟨-, hR⟩ := hR
  cases a with
  | ok a =>
    cases b with
    | ok b => exact Build.Uniform.pure fun u' v' hu hv => Alike.grow hR hu hv
    | error q => exact hR.elim
  | error p =>
    cases b with
    | ok b => exact hR.elim
    | error q =>
      obtain ⟨rfl, herror⟩ := hR
      refine (Build.Uniform.report herror).bind fun _ _ _ _ _ _ _ _ => ?_
      exact Build.Uniform.node.mono fun _ _ _ _ _ _ hnode => ⟨_, _, hnode.2.1, hnode.2.2, rfl⟩

/-! ## Blocks -/

theorem isParenthesis_of_kind? {u : Tree} {a : NodeId} {n : Node} (h : u.unlinked? a = some n) :
    u.kind? a = some n.kind := by
  obtain ⟨own, hown, rfl⟩ := Option.map_eq_some_iff.mp h
  rw [Tree.kind?, hown]
  rfl

theorem uniform_readHeaderExpression (limits : Span) :
    Build.Uniform t t' Whatever (inp.readHeaderExpression limits) (inp.readHeaderExpression limits) := by
  refine (uniform_readOrNull limits).bind fun _ u a v b _ _ halike => ?_
  refine Build.Uniform.get.bind fun _ u' d v' e hu hv htrees => ?_
  obtain ⟨-, rfl, rfl⟩ := htrees
  obtain ⟨n, m, hn, hm, hkinds⟩ := Alike.grow halike hu hv
  rw [isParenthesis_of_kind? hn, isParenthesis_of_kind? hm]
  split
  · split
    · exact Build.Uniform.pure fun _ _ _ _ => trivial
    · exact Build.Uniform.pure fun _ _ _ _ => trivial
  · split
    · exact Build.Uniform.pure fun _ _ _ _ => trivial
    · exact Build.Uniform.pure fun _ _ _ _ => trivial

/-- Two readers answer a tag with the span given, unless both report something. -/
def SameTag {α β : Type} (tag : Option Span) (added : List Diagnostic) (_ : Tree) (a : Option (α × Span)) (_ : Tree)
    (b : Option (β × Span)) : Prop :=
  match a, b with
  | some (_, s), some (_, s') => tag = some s ∧ s' = s
  | none, none => added ≠ []
  | _, _ => False

theorem uniform_readHeader (offset : Nat) (keyword : String) (limits : Span) :
    Build.Uniform t t' (SameTag (inp.opening? keyword offset limits)) (inp.readHeader offset keyword limits)
      (inp.readHeader offset keyword limits) := by
  unfold readHeader opening?
  extract_lets inner
  cases inp.src.find? inp.tags.blockOpener (Span.ordered inner limits.stop) inp.tags.inExpression with
  | none =>
    refine (Build.Uniform.report rfl).bind fun _ _ _ _ _ _ _ hadded => Build.Uniform.pure fun _ _ _ _ => ?_
    rwa [SameTag, List.append_nil]
  | some opened =>
    exact (uniform_readHeaderExpression _).bind fun _ _ _ _ _ _ _ _ => Build.Uniform.pure fun _ _ _ _ => ⟨rfl, rfl⟩

/-- Two readers of a tag answer a statement with the outline given, unless both report something. -/
def SameStep (outline : Option Outline) (isComment : Bool) (added : List Diagnostic) (u : Tree) (step : Step)
    (_ : Tree) (step' : Step) : Prop :=
  match step, step' with
  | .statement node span lastTag isFeature, .statement _ span' lastTag' isFeature' =>
    outline = some ⟨span, lastTag, isFeature⟩ ∧ (span' = span ∧ lastTag' = lastTag ∧ isFeature' = isFeature) ∧
      ∃ n, u.unlinked? node = some n ∧ n.span = span ∧ n.kind.isComment = isComment
  | .skip resume, .skip resume' => resume' = resume ∧ added ≠ []
  | _, _ => False

/-- A statement is read once its node is added. -/
theorem uniform_statement {kind kind' : NodeKind} {span : Span} {children children' : List NodeId} {lastTag : Nat}
    {isComment isFeature : Bool} (h : kind.isComment = isComment) (before : List Diagnostic) :
    Build.Uniform t t' (fun added => SameStep (some ⟨span, lastTag, isFeature⟩) isComment (before ++ added))
      (do
        let node ← Build.node kind span children
        pure (.statement node span lastTag isFeature))
      (do
        let node ← Build.node kind' span children'
        pure (.statement node span lastTag isFeature)) := by
  refine Build.Uniform.node.bind fun _ u a v b _ _ hnode => Build.Uniform.pure fun u' _ hu _ => ?_
  obtain ⟨-, hn, -⟩ := hnode
  exact ⟨rfl, ⟨rfl, rfl, rfl⟩, _, (hu.unlinked a (Tree.lt_size_of_unlinked? hn)).trans hn, rfl, h⟩

/-- A tag that was reported is skipped. -/
theorem uniform_skip {diagnostic : Diagnostic} (herror : diagnostic.isError = true) {resume : Nat}
    {outline : Option Outline} {isComment : Bool} (before : List Diagnostic) :
    Build.Uniform t t' (fun added => SameStep outline isComment (before ++ added))
      (do
        Build.report diagnostic
        pure (.skip resume))
      (do
        Build.report diagnostic
        pure (.skip resume)) :=
  (Build.Uniform.report herror).bind fun _ _ _ _ _ _ _ hadded => Build.Uniform.pure fun _ _ _ _ =>
    ⟨rfl, by simp [hadded]⟩

theorem uniform_readComment (offset : Nat) (limits : Span) :
    Build.Uniform t t' (SameStep (inp.commentOutline? offset limits) true) (inp.readComment offset limits)
      (inp.readComment offset limits) := by
  unfold readComment commentOutline?
  extract_lets inner
  cases inp.src.find? inp.tags.commentCloser (Span.ordered inner limits.stop) [] with
  | none => exact uniform_skip rfl []
  | some close => exact uniform_statement rfl []

theorem uniform_readFeature (offset : Nat) (limits : Span) :
    Build.Uniform t t' (SameStep (inp.featureOutline? offset limits) false) (inp.readFeature offset limits)
      (inp.readFeature offset limits) := by
  unfold readFeature featureOutline?
  extract_lets inner
  cases inp.src.find? inp.tags.closer (Span.ordered inner limits.stop) inp.tags.inTag with
  | none => exact uniform_skip rfl []
  | some close => exact (uniform_readOrNull _).bind fun added _ _ _ _ _ _ _ => uniform_statement rfl added

theorem uniform_readStrayTag (offset : Nat) (limits : Span) :
    Build.Uniform t t' (SameStep none false) (inp.readStrayTag offset limits) (inp.readStrayTag offset limits) :=
  uniform_skip rfl []

section Bodies

variable {readBody : Span → Build NodeId}
  (hbody : ∀ u v limits, Build.Uniform u v Whatever (readBody limits) (readBody limits))

include hbody

theorem uniform_readFor (offset : Nat) (limits : Span) :
    Build.Uniform t t' (SameStep (inp.blockOutline? inp.tags.forOpener offset limits) false)
      (inp.readFor readBody offset limits) (inp.readFor readBody offset limits) := by
  refine (uniform_readHeader offset inp.tags.forOpener limits).bind fun added u a v b _ _ htag => ?_
  match a, b, htag with
  | none, none, hadded => exact Build.Uniform.pure fun _ _ _ _ => ⟨rfl, by rwa [List.append_nil]⟩
  | some (iterator, header), some (iterator', _), ⟨hopening, rfl⟩ =>
    rw [blockOutline?, hopening, Option.bind_some]
    dsimp only
    cases inp.blockClose? inp.tags.forOpener header.stop limits.stop with
    | none => exact uniform_skip rfl added
    | some close =>
      refine (hbody u v _).bind fun later _ _ _ _ _ _ _ => ?_
      simp only [← List.append_assoc]
      exact uniform_statement rfl (added ++ later)

/-- Two readers of an else tag answer the same tag, unless both report something. -/
def SameElse (added : List Diagnostic) (_ : Tree) (a : Option (Option NodeId × Span)) (_ : Tree)
    (b : Option (Option NodeId × Span)) : Prop :=
  match a, b with
  | some (condition, s), some (condition', s') => condition'.isNone = condition.isNone ∧ s' = s
  | none, none => added ≠ []
  | _, _ => False

omit hbody in
theorem uniform_readElseHeader (elseTag close : Span) :
    Build.Uniform t t' SameElse (inp.readElseHeader elseTag close) (inp.readElseHeader elseTag close) := by
  unfold readElseHeader
  extract_lets next isElseIf inner
  split
  · refine (Build.Uniform.report rfl).bind fun _ _ _ _ _ _ _ hadded => Build.Uniform.pure fun _ _ _ _ => ?_
    rwa [SameElse, List.append_nil]
  · split
    · exact (uniform_readHeaderExpression _).bind fun _ _ _ _ _ _ _ _ => Build.Uniform.pure fun _ _ _ _ => ⟨rfl, rfl⟩
    · extract_lets between header goOn
      split
      · exact Build.Uniform.pure fun _ _ _ _ => ⟨rfl, rfl⟩
      · exact (Build.Uniform.report rfl).bind fun _ _ _ _ _ _ _ _ => Build.Uniform.pure fun _ _ _ _ => ⟨rfl, rfl⟩

/-- Branches between the same tags. -/
def SameBranch (b b' : Branch) : Prop := b'.opening = b.opening ∧ b'.closing = b.closing

/-- Two readers answer the branches between the same tags, at least one, unless both report something. -/
def SameBranches (added : List Diagnostic) (_ : Tree) (a : Option (List Branch)) (_ : Tree)
    (b : Option (List Branch)) : Prop :=
  match a, b with
  | some branches, some branches' => branches ≠ [] ∧ List.Forall₂ SameBranch branches branches'
  | none, none => added ≠ []
  | _, _ => False

omit hbody in
theorem uniform_readBranches (close : Span) (fuel : Nat) {condition condition' : Option NodeId}
    (hcondition : condition'.isNone = condition.isNone) (opening : Span) (cursor : Nat) :
    Build.Uniform t t' SameBranches (inp.readBranches close fuel condition opening cursor)
      (inp.readBranches close fuel condition' opening cursor) := by
  induction fuel generalizing t t' condition condition' opening cursor with
  | zero => exact Build.Uniform.pure fun _ _ _ _ => ⟨List.cons_ne_nil _ _, .cons ⟨rfl, rfl⟩ .nil⟩
  | succ fuel ih =>
    unfold readBranches
    split
    · exact Build.Uniform.pure fun _ _ _ _ => ⟨List.cons_ne_nil _ _, .cons ⟨rfl, rfl⟩ .nil⟩
    next elseTag _ =>
    refine (uniform_readElseHeader elseTag close).bind fun added u a v b _ _ hheader => ?_
    match a, b, hheader with
    | none, none, hadded => exact Build.Uniform.pure fun _ _ _ _ => by rwa [SameBranches, List.append_nil]
    | some (next, header), some (next', _), ⟨hnext, rfl⟩ =>
      have hrest (u v : Tree) (before : List Diagnostic) : Build.Uniform u v
          (fun later => SameBranches (before ++ later))
          (do
            let rest ← inp.readBranches close fuel next header header.stop
            pure (rest.map (⟨condition, opening, header⟩ :: ·)))
          (do
            let rest ← inp.readBranches close fuel next' header header.stop
            pure (rest.map (⟨condition', opening, header⟩ :: ·))) := by
        refine (ih hnext header header.stop).bind fun later _ a _ b _ _ hbranches => Build.Uniform.pure fun _ _ _ _ => ?_
        match a, b, hbranches with
        | none, none, hlater => simp [SameBranches, show later ≠ [] from hlater]
        | some branches, some branches', ⟨_, hsame⟩ => exact ⟨List.cons_ne_nil _ _, .cons ⟨rfl, rfl⟩ hsame⟩
      dsimp only
      rw [hcondition]
      split
      · refine (Build.Uniform.report rfl).bind fun reported u v _ _ _ _ _ => ?_
        simp only [← List.append_assoc]
        exact hrest _ _ (added ++ reported)
      · exact hrest u v added

theorem uniform_readElseParts {branches branches' : List Branch}
    (hbranches : List.Forall₂ SameBranch branches branches') (parts parts' : ElseParts) :
    Build.Uniform t t' Whatever (inp.readElseParts readBody branches parts)
      (inp.readElseParts readBody branches' parts') := by
  induction hbranches generalizing t t' parts parts' with
  | nil => exact Build.Uniform.pure fun _ _ _ _ => trivial
  | cons hfirst _ ih =>
    obtain ⟨hopening, hclosing⟩ := hfirst
    unfold readElseParts
    rw [hopening, hclosing]
    exact (hbody _ _ _).bind fun _ _ _ _ _ _ _ _ => ih _ _

theorem uniform_readIf (offset : Nat) (limits : Span) :
    Build.Uniform t t' (SameStep (inp.blockOutline? inp.tags.ifOpener offset limits) false)
      (inp.readIf readBody offset limits) (inp.readIf readBody offset limits) := by
  refine (uniform_readHeader offset inp.tags.ifOpener limits).bind fun added u a v b _ _ htag => ?_
  rcases a with _ | ⟨condition, _⟩ <;> rcases b with _ | ⟨condition', header⟩
  · exact Build.Uniform.pure fun _ _ _ _ => ⟨rfl, by rwa [List.append_nil]⟩
  · exact htag.elim
  · exact htag.elim
  · obtain ⟨hopening, rfl⟩ := htag
    rw [blockOutline?, hopening, Option.bind_some]
    dsimp only
    cases inp.blockClose? inp.tags.ifOpener header.stop limits.stop with
    | none => exact uniform_skip rfl added
    | some close =>
      have hcondition : (some condition').isNone = (some condition).isNone := rfl
      refine (uniform_readBranches close _ hcondition header header.stop).bind fun more _ a _ b _ _ hbranches => ?_
      rcases a with _ | branches <;> rcases b with _ | branches'
      · exact Build.Uniform.pure fun _ _ _ _ => ⟨rfl, by simp [show more ≠ [] from hbranches]⟩
      · exact hbranches.elim
      · exact hbranches.elim
      · obtain ⟨hne, _ | ⟨⟨hfirst, hclosing⟩, hrest⟩⟩ := hbranches
        · exact absurd rfl hne
        dsimp only
        rw [hfirst, hclosing]
        refine (hbody _ _ _).bind fun later _ _ _ _ _ _ _ => ?_
        refine (uniform_readElseParts hbody hrest _ _).bind fun last _ _ _ _ _ _ _ => ?_
        simp only [← List.append_assoc]
        exact uniform_statement rfl (added ++ more ++ later ++ last)

/-- A statement is read alike, and as its outline tells. -/
theorem uniform_readStatement (offset : Nat) (limits : Span) :
    Build.Uniform t t'
      (SameStep (inp.outline? offset limits) (inp.src.startsAt offset inp.tags.commentOpener))
      (inp.readStatement readBody offset limits) (inp.readStatement readBody offset limits) := by
  unfold readStatement outline?
  cases inp.src.startsAt offset inp.tags.commentOpener with
  | true => exact uniform_readComment offset limits
  | false =>
    simp only [Bool.false_eq_true, if_false]
    split
    · exact uniform_readIf hbody offset limits
    split
    · exact uniform_readFor hbody offset limits
    split
    · exact uniform_readStrayTag offset limits
    · exact uniform_readFeature offset limits

end Bodies

end Input

end ModelText.Template
