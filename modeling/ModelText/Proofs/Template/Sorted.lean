import ModelText.Template.Expression

/-!
# Steps that add nodes

Readers only add nodes to a tree: what a node is, and which children it has, stays. So facts about the
nodes that were read so far carry over. In the trees that readers build, the nodes of a body are
statements, each listed once, what a block refers to as its bodies are bodies, and calls have names.
-/

namespace ModelText.Template

/-- The bodies of a statement. -/
def NodeKind.bodies : NodeKind → List NodeId
  | .forLoop _ body => [body]
  | .ifElse _ body elseIfs otherwise => body :: elseIfs.map (·.2) ++ otherwise.toList
  | _ => []

/-- Whether a text is a name. -/
def IsName (text : String) : Prop := Input.nameOf text.toList = text.toList

/-- What a call is named by is a name. -/
def NodeKind.Named : NodeKind → Prop
  | .call _ name _ _ => IsName name
  | _ => True

namespace Tree

/-- Whether a node is a statement. -/
def IsStatement (t : Tree) (id : NodeId) : Prop :=
  ∃ kind, t.kind? id = some kind ∧ kind.isStatement = true

/-- Whether a node holds the statements of a body. -/
def IsBody (t : Tree) (id : NodeId) : Prop := t.kind? id = some .template

/-- Whether a tree has no node of an index yet. -/
def Lacks (t : Tree) (id : NodeId) : Prop := t.kind? id = none

/-- Bodies hold statements, each once, blocks have bodies and calls have names. -/
structure WellSorted (t : Tree) : Prop where
  statements : ∀ id, t.IsBody id → ∀ child ∈ t.children id, t.IsStatement child
  distinct : ∀ id, t.IsBody id → (t.children id).Nodup
  bodies : ∀ id kind, t.kind? id = some kind → ∀ body ∈ kind.bodies, t.IsBody body
  named : ∀ id kind, t.kind? id = some kind → kind.Named

/-- What a node is, with its children. -/
def part? (t : Tree) (id : NodeId) : Option (NodeKind × List NodeId) :=
  (t.node? id).map fun n => (n.kind, n.children)

/-- The second tree has the nodes of the first. -/
def Extends (t u : Tree) : Prop := ∀ id part, t.part? id = some part → u.part? id = some part

theorem kind?_eq (t : Tree) (id : NodeId) : t.kind? id = (t.part? id).map (·.1) := by
  rw [part?, Option.map_map]
  rfl

theorem children_eq (t : Tree) (id : NodeId) :
    t.children id = ((t.part? id).map (·.2)).getD [] := by
  rw [part?, Option.map_map]
  rfl

theorem lt_size_of_kind? {t : Tree} {id : NodeId} {kind : NodeKind} (h : t.kind? id = some kind) :
    id < t.size := by
  obtain ⟨n, hn, -⟩ := Option.map_eq_some_iff.mp h
  exact (Array.getElem?_eq_some_iff.mp hn).1

theorem Extends.refl (t : Tree) : t.Extends t := fun _ _ h => h

theorem Extends.trans {t u v : Tree} (h : t.Extends u) (h' : u.Extends v) : t.Extends v :=
  fun id part hpart => h' id part (h id part hpart)

theorem Extends.kind? {t u : Tree} (h : t.Extends u) {id : NodeId} {kind : NodeKind}
    (hid : t.kind? id = some kind) : u.kind? id = some kind := by
  rw [kind?_eq] at hid ⊢
  obtain ⟨part, hpart, rfl⟩ := Option.map_eq_some_iff.mp hid
  rw [h id part hpart]
  rfl

theorem Extends.children {t u : Tree} (h : t.Extends u) {id : NodeId} {kind : NodeKind}
    (hid : t.kind? id = some kind) : u.children id = t.children id := by
  rw [kind?_eq] at hid
  obtain ⟨part, hpart, -⟩ := Option.map_eq_some_iff.mp hid
  rw [children_eq, children_eq, hpart, h id part hpart]

theorem Extends.isBody {t u : Tree} (h : t.Extends u) {id : NodeId} (hid : t.IsBody id) :
    u.IsBody id := h.kind? hid

theorem Extends.isStatement {t u : Tree} (h : t.Extends u) {id : NodeId}
    (hid : t.IsStatement id) : u.IsStatement id := by
  obtain ⟨kind, hkind, hstatement⟩ := hid
  exact ⟨kind, h.kind? hkind, hstatement⟩

/-- What a larger tree lacks a smaller one lacks as well. -/
theorem Extends.lacks {t u : Tree} (h : t.Extends u) {id : NodeId} (hid : u.Lacks id) :
    t.Lacks id := by
  cases hkind : t.kind? id with
  | none => exact hkind
  | some kind =>
    have := h.kind? hkind
    rw [show u.kind? id = none from hid] at this
    cases this

theorem lacks_size (t : Tree) : t.Lacks t.size := by
  simp [Lacks, kind?, node?, size]

theorem IsStatement.not_lacks {t : Tree} {id : NodeId} (h : t.IsStatement id) : ¬ t.Lacks id := by
  obtain ⟨kind, hkind, -⟩ := h
  simp [Lacks, hkind]

theorem wellSorted_empty (dialect : Dialect) : WellSorted { dialect } := by
  constructor
  · intro id hid
    simp [IsBody, kind?, node?] at hid
  · intro id hid
    simp [IsBody, kind?, node?] at hid
  · intro id kind hkind
    simp [kind?, node?] at hkind
  · intro id kind hkind
    simp [kind?, node?] at hkind

/-- Linking changes neither what the nodes are nor what they are made of. -/
theorem getElem?_link (parent : NodeId) (previous : Option NodeId) (children : List NodeId)
    (nodes : Array Node) (id : NodeId) :
    ((link parent previous children nodes)[id]?).map (fun n => (n.kind, n.children)) =
      (nodes[id]?).map fun n => (n.kind, n.children) := by
  have hmodify (nodes : Array Node) (index : NodeId) (f : Node → Node)
      (hf : ∀ n, (f n).kind = n.kind ∧ (f n).children = n.children) :
      ((nodes.modify index f)[id]?).map (fun n => (n.kind, n.children)) =
        (nodes[id]?).map fun n => (n.kind, n.children) := by
    rw [Array.getElem?_modify]
    split
    · cases nodes[id]? with
      | none => rfl
      | some n => simp [hf n]
    · rfl
  induction children generalizing previous nodes with
  | nil => rfl
  | cons child rest ih =>
    cases previous with
    | none =>
      simp only [link]
      rw [ih, hmodify _ _ _ (by simp)]
    | some p =>
      simp only [link]
      rw [ih, hmodify _ _ _ (by simp), hmodify _ _ _ (by simp)]

/-- A new node is what it was added as, and the other nodes stay what they were. -/
theorem part?_push (t : Tree) (kind : NodeKind) (span : Span) (children : List NodeId)
    (id : NodeId) :
    (t.push kind span children).part? id =
      if id = t.size then some (kind, children) else t.part? id := by
  rw [part?, node?, push, getElem?_link, Array.getElem?_push]
  split
  · next h => exact (if_pos h).symm
  · next h => exact (if_neg h).symm

theorem kind?_push (t : Tree) (kind : NodeKind) (span : Span) (children : List NodeId)
    (id : NodeId) :
    (t.push kind span children).kind? id = if id = t.size then some kind else t.kind? id := by
  rw [kind?_eq, kind?_eq, part?_push]
  split <;> rfl

theorem children_push (t : Tree) (kind : NodeKind) (span : Span) (children : List NodeId)
    (id : NodeId) :
    (t.push kind span children).children id =
      if id = t.size then children else t.children id := by
  rw [children_eq, children_eq, part?_push]
  split <;> rfl

theorem extends_push (t : Tree) (kind : NodeKind) (span : Span) (children : List NodeId) :
    t.Extends (t.push kind span children) := by
  intro id part hpart
  rw [part?_push]
  split
  · next heq =>
    obtain ⟨n, hn, -⟩ := Option.map_eq_some_iff.mp hpart
    have hlt : id < t.size := (Array.getElem?_eq_some_iff.mp hn).1
    exact absurd heq (Nat.ne_of_lt hlt)
  · exact hpart

/-- A node may be added when its parts are of the right sort. -/
theorem WellSorted.push {t : Tree} (h : t.WellSorted) {kind : NodeKind} (span : Span)
    {children : List NodeId} (hbodies : ∀ body ∈ kind.bodies, t.IsBody body)
    (hchildren : kind = .template → (∀ child ∈ children, t.IsStatement child) ∧ children.Nodup)
    (hnamed : kind.Named) : (t.push kind span children).WellSorted := by
  have hextends := t.extends_push kind span children
  constructor
  · intro id hid child hchild
    rw [IsBody, kind?_push] at hid
    rw [children_push] at hchild
    split at hid
    · next heq =>
      rw [if_pos heq] at hchild
      exact hextends.isStatement ((hchildren (Option.some.inj hid)).1 child hchild)
    · next hne =>
      rw [if_neg hne] at hchild
      exact hextends.isStatement (h.statements id hid child hchild)
  · intro id hid
    rw [IsBody, kind?_push] at hid
    rw [children_push]
    split at hid
    · next heq =>
      rw [if_pos heq]
      exact (hchildren (Option.some.inj hid)).2
    · next hne =>
      rw [if_neg hne]
      exact h.distinct id hid
  · intro id own hown body hbody
    rw [kind?_push] at hown
    split at hown
    · cases hown
      exact hextends.isBody (hbodies body hbody)
    · exact hextends.isBody (h.bodies id own hown body hbody)
  · intro id own hown
    rw [kind?_push] at hown
    split at hown
    · cases hown
      exact hnamed
    · exact h.named id own hown

end Tree

/-! ## Steps that add nodes -/

/-- What every step that builds a tree keeps from a draft to the next. -/
structure Law (I : Draft → Draft → Prop) : Prop where
  refl : ∀ d, I d d
  trans : ∀ {d e f}, I d e → I e f → I d f

/-- A step keeps the law `I`, adds nodes to every tree with the nodes of `t`, and answers what `Q`
tells. -/
def Build.Adds (I : Draft → Draft → Prop) {α : Type} (t : Tree) (Q : Tree → α → Prop)
    (x : Build α) : Prop :=
  ∀ d : Draft, t.Extends d.tree →
    d.tree.Extends (x d).2.tree ∧ I d (x d).2 ∧ Q (x d).2.tree (x d).1

namespace Build

variable {α β : Type} {I : Draft → Draft → Prop} (hI : Law I) {t : Tree} {Q : Tree → α → Prop}
  {R : Tree → β → Prop}

include hI

theorem adds_pure {a : α} (h : ∀ u, t.Extends u → Q u a) : Adds I t Q (pure a) :=
  fun d hd => ⟨.refl _, hI.refl d, h d.tree hd⟩

theorem adds_bind {x : Build α} {f : α → Build β} (h : Adds I t Q x)
    (h' : ∀ u a, t.Extends u → Q u a → Adds I u R (f a)) : Adds I t R (x >>= f) := by
  intro d hd
  obtain ⟨hextends, hlaw, hQ⟩ := h d hd
  obtain ⟨hextends', hlaw', hR⟩ :=
    h' (x d).2.tree (x d).1 (hd.trans hextends) hQ (x d).2 (.refl _)
  exact ⟨hextends.trans hextends', hI.trans hlaw hlaw', hR⟩

theorem adds_get : Adds I t (fun u d => d.tree = u) (get : Build Draft) :=
  fun d _ => ⟨.refl _, hI.refl d, rfl⟩

omit hI

theorem Adds.mono {Q' : Tree → α → Prop} {x : Build α} (h : Adds I t Q x)
    (h' : ∀ u a, t.Extends u → Q u a → Q' u a) : Adds I t Q' x := by
  intro d hd
  obtain ⟨hextends, hlaw, hQ⟩ := h d hd
  exact ⟨hextends, hlaw, h' _ _ (hd.trans hextends) hQ⟩

/-- The answer of a step does not matter. -/
theorem Adds.ignore {x : Build α} (h : Adds I t Q x) : Adds I t (fun _ _ => True) x :=
  h.mono fun _ _ _ _ => trivial

end Build

/-! ## Sorted drafts -/

/-- Steps keep the tree of a draft well sorted. -/
def KeepsSorted (d e : Draft) : Prop := d.tree.WellSorted → e.tree.WellSorted

theorem law_keepsSorted : Law KeepsSorted := ⟨fun _ h => h, fun h h' hd => h' (h hd)⟩

/-- A step adds nodes and leaves the tree well sorted. -/
abbrev Build.AddsSorted {α : Type} (t : Tree) (Q : Tree → α → Prop) (x : Build α) : Prop :=
  Build.Adds KeepsSorted t Q x

/-- A reader of expressions adds nodes and leaves the tree well sorted, whether it gives up or not. -/
def Attempt.AddsSorted {α : Type} (x : Attempt α) : Prop :=
  ∀ t, Build.AddsSorted t (fun _ _ => True) x.run

namespace Build.AddsSorted

variable {α β : Type} {t : Tree} {Q : Tree → α → Prop} {R : Tree → β → Prop}

theorem pure {a : α} (h : ∀ u, t.Extends u → Q u a) : AddsSorted t Q (Pure.pure a) :=
  adds_pure law_keepsSorted h

theorem bind {x : Build α} {f : α → Build β} (h : AddsSorted t Q x)
    (h' : ∀ u a, t.Extends u → Q u a → AddsSorted u R (f a)) : AddsSorted t R (x >>= f) :=
  adds_bind law_keepsSorted h h'

theorem report (diagnostic : Diagnostic) :
    AddsSorted t (fun _ _ => True) (Build.report diagnostic) :=
  fun _ _ => ⟨.refl _, fun hd => hd, trivial⟩

/-- A node may be added when its parts are of the right sort. It is a new one. -/
theorem node {kind : NodeKind} (span : Span) {children : List NodeId}
    (hbodies : ∀ body ∈ kind.bodies, t.IsBody body)
    (hchildren : kind = .template → (∀ child ∈ children, t.IsStatement child) ∧ children.Nodup)
    (hnamed : kind.Named) :
    AddsSorted t (fun u id => u.kind? id = some kind ∧ t.Lacks id)
      (Build.node kind span children) := by
  intro d hd
  refine ⟨d.tree.extends_push kind span children, fun hsorted => hsorted.push span ?_ ?_ hnamed, ?_, ?_⟩
  · exact fun body hbody => hd.isBody (hbodies body hbody)
  · intro hkind
    obtain ⟨hstatements, hnodup⟩ := hchildren hkind
    exact ⟨fun child hchild => hd.isStatement (hstatements child hchild), hnodup⟩
  · exact (d.tree.kind?_push kind span children d.tree.size).trans (if_pos rfl)
  · exact hd.lacks d.tree.lacks_size

end Build.AddsSorted

namespace Attempt.AddsSorted

variable {α β : Type}

theorem pure (a : α) : AddsSorted (Pure.pure a : Attempt α) :=
  fun _ => Build.AddsSorted.pure fun _ _ => trivial

theorem throw (diagnostic : Diagnostic) : AddsSorted (MonadExcept.throw diagnostic : Attempt α) :=
  fun _ => Build.AddsSorted.pure fun _ _ => trivial

theorem bind {x : Attempt α} {f : α → Attempt β} (h : AddsSorted x)
    (h' : ∀ a, AddsSorted (f a)) : AddsSorted (x >>= f) := by
  intro t
  rw [ExceptT.run_bind]
  refine Build.AddsSorted.bind (h t) fun u result _ _ => ?_
  cases result with
  | ok a => exact h' a u
  | error diagnostic => exact Build.AddsSorted.pure fun _ _ => trivial

theorem mapM {f : α → Attempt β} (h : ∀ a, AddsSorted (f a)) (l : List α) :
    AddsSorted (l.mapM f) := by
  induction l with
  | nil => exact pure []
  | cons a rest ih =>
    rw [List.mapM_cons]
    exact bind (h a) fun b => bind ih fun bs => pure (b :: bs)

/-- Nodes of expressions may be added at any time. -/
theorem node {kind : NodeKind} (span : Span) (children : List NodeId)
    (hbodies : kind.bodies = []) (hkind : kind ≠ .template) (hnamed : kind.Named) :
    AddsSorted (Build.node kind span children : Attempt NodeId) := by
  intro t
  refine Build.AddsSorted.bind (Build.AddsSorted.node span ?_ ?_ hnamed) fun u id _ _ =>
    Build.AddsSorted.pure fun _ _ => trivial
  · rw [hbodies]
    exact fun _ h => absurd h List.not_mem_nil
  · exact fun h => absurd h hkind

end Attempt.AddsSorted

end ModelText.Template
