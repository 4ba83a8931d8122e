import Mathlib.Data.List.Pairwise
import Mathlib.Logic.Relation
import ModelText.Proofs.Template.Sorted

/-!
# Links between nodes

Adding a node links its children: each learns its parent and its neighbours, and nothing else about any
node changes. Before they are linked, the children head trees that have no node in common. A node that
heads such a tree may be linked again, as the expression in the parentheses of a header is: the node that
listed it before then heads no tree.
-/

namespace ModelText.Template

/-- A node without its links. -/
def Node.unlinked (n : Node) : Node := { n with parent := none, previous := none, next := none }

namespace Tree

/-- A node lists another one among its children. -/
def Lists (t : Tree) (parent child : NodeId) : Prop := child ∈ t.children parent

/-- A node is another one or lies below it. -/
abbrev Reaches (t : Tree) : NodeId → NodeId → Prop := Relation.ReflTransGen t.Lists

/-- The children of a node know it as their parent, and know their neighbours among themselves. -/
def LinkedAt (t : Tree) (id : NodeId) : Prop :=
  ∀ i child, (t.children id)[i]? = some child →
    t.parent? child = some id ∧
      t.previous? child = (if i = 0 then none else (t.children id)[i - 1]?) ∧
      t.next? child = (t.children id)[i + 1]?

/-- Two nodes head trees that have no node in common. -/
def Apart (t : Tree) (a b : NodeId) : Prop := ∀ c, t.Reaches a c → ¬ t.Reaches b c

/-- A node heads a well-formed tree of nodes from `low` on, and no node stands behind it yet. -/
structure Formed (t : Tree) (low : Nat) (id : NodeId) : Prop where
  lt_size : id < t.size
  next : t.next? id = none
  low_le : ∀ b, t.Reaches id b → low ≤ b
  linked : ∀ b, t.Reaches id b → t.LinkedAt b

/-- The nodes of a list head well-formed trees that have no nodes in common. -/
structure Forest (t : Tree) (low : Nat) (ids : List NodeId) : Prop where
  formed : ∀ id ∈ ids, t.Formed low id
  apart : ids.Pairwise t.Apart

/-- The children of every node were added before it. -/
def Descending (t : Tree) : Prop := ∀ id, ∀ child ∈ t.children id, child < id

/-- A node without its links. -/
def unlinked? (t : Tree) (id : NodeId) : Option Node := (t.node? id).map Node.unlinked

/-- The second tree has the nodes of the first, up to their links. -/
structure Grows (t u : Tree) : Prop where
  size_le : t.size ≤ u.size
  unlinked : ∀ id < t.size, u.unlinked? id = t.unlinked? id

/-- Two trees have the same nodes below an index. -/
def AgreesBelow (low : Nat) (t u : Tree) : Prop := ∀ id < low, u.node? id = t.node? id

variable {t u v : Tree} {low : Nat} {id a b : NodeId} {ids children : List NodeId}

/-! ## Linking -/

/-- Links one node to its parent and to the node in front of it. -/
def linkOne (parent : NodeId) (previous : Option NodeId) (child : NodeId) (nodes : Array Node) : Array Node :=
  let nodes := nodes.modify child fun n => { n with parent := some parent, previous := previous }
  match previous with
  | some p => nodes.modify p fun n => { n with next := some child }
  | none => nodes

theorem link_cons (parent : NodeId) (previous : Option NodeId) (child : NodeId) (rest : List NodeId)
    (nodes : Array Node) :
    link parent previous (child :: rest) nodes =
      link parent (some child) rest (linkOne parent previous child nodes) := rfl

section LinkOne

variable (parent : NodeId) {previous : Option NodeId} {child : NodeId} {nodes : Array Node}

theorem getElem?_linkOne_of_ne (hchild : child ≠ id) (hprevious : previous ≠ some id) :
    (linkOne parent previous child nodes)[id]? = nodes[id]? := by
  cases previous with
  | none => rw [linkOne, Array.getElem?_modify, if_neg hchild]
  | some p =>
    have hp : p ≠ id := fun h => hprevious (congrArg some h)
    rw [linkOne, Array.getElem?_modify, if_neg hp, Array.getElem?_modify, if_neg hchild]

theorem getElem?_linkOne_previous (hne : child ≠ id) :
    (linkOne parent (some id) child nodes)[id]? =
      (nodes[id]?).map fun n => { n with next := some child } := by
  rw [linkOne, Array.getElem?_modify, if_pos rfl, Array.getElem?_modify, if_neg hne]

theorem getElem?_linkOne_child (hprevious : previous ≠ some child) :
    (linkOne parent previous child nodes)[child]? =
      (nodes[child]?).map fun n => { n with parent := some parent, previous := previous } := by
  cases previous with
  | none => rw [linkOne, Array.getElem?_modify, if_pos rfl]
  | some p =>
    have hp : p ≠ child := fun h => hprevious (congrArg some h)
    rw [linkOne, Array.getElem?_modify, if_neg hp, Array.getElem?_modify, if_pos rfl]

/-- Linking changes nothing but links. -/
theorem map_linkOne {α : Type} (f : Node → α) (hf : ∀ n m : Node, n.unlinked = m.unlinked → f n = f m)
    (previous : Option NodeId) (child : NodeId) (nodes : Array Node) (id : NodeId) :
    ((linkOne parent previous child nodes)[id]?).map f = (nodes[id]?).map f := by
  have hmodify (nodes : Array Node) (index : NodeId) (g : Node → Node)
      (hg : ∀ n, (g n).unlinked = n.unlinked) :
      ((nodes.modify index g)[id]?).map f = (nodes[id]?).map f := by
    rw [Array.getElem?_modify]
    split
    · cases nodes[id]? with
      | none => rfl
      | some n => exact congrArg some (hf _ _ (hg n))
    · rfl
  cases previous with
  | none =>
    rw [linkOne, hmodify]
    exact fun _ => rfl
  | some p =>
    rw [linkOne, hmodify, hmodify]
    · exact fun _ => rfl
    · exact fun _ => rfl

end LinkOne

theorem map_link {α : Type} (f : Node → α) (hf : ∀ n m : Node, n.unlinked = m.unlinked → f n = f m)
    (parent : NodeId) (previous : Option NodeId) (children : List NodeId) (nodes : Array Node) (id : NodeId) :
    ((link parent previous children nodes)[id]?).map f = (nodes[id]?).map f := by
  induction children generalizing previous nodes with
  | nil => rfl
  | cons child rest ih => rw [link_cons, ih, map_linkOne parent f hf]

theorem getElem?_link_of_not_mem (parent : NodeId) {previous : Option NodeId} {nodes : Array Node}
    (hmem : id ∉ children) (hprevious : previous ≠ some id) :
    (link parent previous children nodes)[id]? = nodes[id]? := by
  induction children generalizing previous nodes with
  | nil => rfl
  | cons child rest ih =>
    obtain ⟨hne, hrest⟩ := List.ne_and_not_mem_of_not_mem_cons hmem
    rw [link_cons, ih hrest fun h => hne (Option.some.inj h).symm,
      getElem?_linkOne_of_ne parent (Ne.symm hne) hprevious]

/-- The node in front of the linked ones gets the first of them as its neighbour. -/
theorem getElem?_link_previous (parent : NodeId) {nodes : Array Node} (hmem : id ∉ children) :
    (link parent (some id) children nodes)[id]? =
      (nodes[id]?).map fun n => { n with next := children.head?.or n.next } := by
  cases children with
  | nil => cases h : nodes[id]? <;> simp [link, h]
  | cons child rest =>
    obtain ⟨hne, hrest⟩ := List.ne_and_not_mem_of_not_mem_cons hmem
    rw [link_cons, getElem?_link_of_not_mem parent hrest fun h => hne (Option.some.inj h).symm,
      getElem?_linkOne_previous parent (Ne.symm hne)]
    rfl

/-- A linked node gets its parent and its neighbours. -/
theorem getElem?_link_child (parent : NodeId) {previous : Option NodeId} {nodes : Array Node} {i : Nat}
    {child : NodeId} (hnodup : children.Nodup) (hprevious : ∀ p ∈ previous, p ∉ children)
    (hchild : children[i]? = some child) :
    (link parent previous children nodes)[child]? =
      (nodes[child]?).map fun n =>
        { n with parent := some parent
                 previous := if i = 0 then previous else children[i - 1]?
                 next := (children[i + 1]?).or n.next } := by
  induction children generalizing previous nodes i with
  | nil => cases hchild
  | cons head rest ih =>
    obtain ⟨hhead, hrest⟩ := List.nodup_cons.mp hnodup
    have hnot : previous ≠ some head := fun h => hprevious head h List.mem_cons_self
    rw [link_cons]
    cases i with
    | zero =>
      cases hchild
      rw [getElem?_link_previous parent hhead, getElem?_linkOne_child parent hnot, Option.map_map]
      simp [Function.comp_def, List.head?_eq_getElem?]
    | succ i =>
      have hmem : child ∈ rest := List.mem_of_getElem? hchild
      have hne : head ≠ child := fun h => hhead (h ▸ hmem)
      have hnot' : previous ≠ some child := fun h => hprevious child h (List.mem_cons_of_mem _ hmem)
      rw [ih hrest (fun p hp => by cases hp; exact hhead) hchild, getElem?_linkOne_of_ne parent hne hnot']
      cases i <;> rfl

/-! ## Trees that grow -/

theorem unlinked?_eq_some {n : Node} (h : t.node? id = some n) : t.unlinked? id = some n.unlinked := by
  rw [unlinked?, h]
  rfl

theorem kind?_unlinked (t : Tree) (id : NodeId) : t.kind? id = (t.unlinked? id).map (·.kind) := by
  rw [unlinked?, Option.map_map]
  rfl

theorem span_unlinked (t : Tree) (id : NodeId) : t.span id = ((t.unlinked? id).map (·.span)).getD ⟨0, 0⟩ := by
  rw [unlinked?, Option.map_map]
  rfl

theorem children_unlinked (t : Tree) (id : NodeId) :
    t.children id = ((t.unlinked? id).map (·.children)).getD [] := by
  rw [unlinked?, Option.map_map]
  rfl

theorem node?_eq_none (h : t.size ≤ id) : t.node? id = none := Array.getElem?_eq_none h

theorem lt_size_of_node? {n : Node} (h : t.node? id = some n) : id < t.size :=
  (Array.getElem?_eq_some_iff.mp h).1

theorem children_eq_nil (h : t.size ≤ id) : t.children id = [] := by
  rw [children, node?_eq_none h]
  rfl

theorem Grows.refl (t : Tree) : t.Grows t := ⟨Nat.le_refl _, fun _ _ => rfl⟩

theorem Grows.trans (h : t.Grows u) (h' : u.Grows v) : t.Grows v :=
  ⟨Nat.le_trans h.size_le h'.size_le,
    fun id hid => (h'.unlinked id (Nat.lt_of_lt_of_le hid h.size_le)).trans (h.unlinked id hid)⟩

theorem Grows.span (h : t.Grows u) (hid : id < t.size) : u.span id = t.span id := by
  rw [span_unlinked, span_unlinked, h.unlinked id hid]

theorem Grows.children_eq (h : t.Grows u) (hid : id < t.size) : u.children id = t.children id := by
  rw [children_unlinked, children_unlinked, h.unlinked id hid]

theorem AgreesBelow.trans (h : AgreesBelow low t u) (h' : AgreesBelow low u v) : AgreesBelow low t v :=
  fun id hid => (h' id hid).trans (h id hid)

theorem AgreesBelow.mono {low' : Nat} (h : AgreesBelow low t u) (hle : low' ≤ low) : AgreesBelow low' t u :=
  fun id hid => h id (Nat.lt_of_lt_of_le hid hle)

/-- A new node is what it was added as, and the other nodes stay what they were. -/
theorem unlinked?_push (t : Tree) (kind : NodeKind) (span : Span) (children : List NodeId) (id : NodeId) :
    (t.push kind span children).unlinked? id =
      if id = t.size then some { kind, span, children } else t.unlinked? id := by
  rw [unlinked?, node?, push, map_link _ (fun _ _ h => h), Array.getElem?_push]
  split
  · next h => exact (if_pos h).symm
  · next h => exact (if_neg h).symm

theorem grows_push (t : Tree) (kind : NodeKind) (span : Span) (children : List NodeId) :
    t.Grows (t.push kind span children) := by
  refine ⟨by simp, fun id hid => ?_⟩
  rw [unlinked?_push, if_neg (Nat.ne_of_lt hid)]

theorem span_push_size (t : Tree) (kind : NodeKind) (span : Span) (children : List NodeId) :
    (t.push kind span children).span t.size = span := by
  rw [span_unlinked, unlinked?_push, if_pos rfl]
  rfl

/-- A node that is not among the children of a new one keeps its links. -/
theorem node?_push_of_not_mem (kind : NodeKind) (span : Span) (hid : id < t.size) (hmem : id ∉ children) :
    (t.push kind span children).node? id = t.node? id := by
  rw [node?, push, getElem?_link_of_not_mem _ hmem (by simp), Array.getElem?_push_lt hid]
  exact (Array.getElem?_eq_getElem hid).symm

theorem agreesBelow_push (kind : NodeKind) (span : Span) (hlow : low ≤ t.size)
    (hchildren : ∀ child ∈ children, low ≤ child) : AgreesBelow low t (t.push kind span children) :=
  fun _ hid => node?_push_of_not_mem kind span (Nat.lt_of_lt_of_le hid hlow)
    fun hmem => Nat.not_le.mpr hid (hchildren _ hmem)

/-! ## Nodes below a node -/

theorem Descending.reaches_le (h : t.Descending) (hreaches : t.Reaches a b) : b ≤ a := by
  induction hreaches with
  | refl => exact Nat.le_refl _
  | tail _ hlists ih => exact Nat.le_trans (Nat.le_of_lt (h _ _ hlists)) ih

/-- From an old node, only old nodes are reached, on the old ways. -/
theorem Descending.reaches_iff (h : t.Descending) (hchildren : ∀ id < t.size, u.children id = t.children id)
    (ha : a < t.size) : u.Reaches a b ↔ t.Reaches a b := by
  constructor
  · intro hreaches
    induction hreaches with
    | refl => exact .refl
    | tail _ hlists ih =>
      refine ih.tail ?_
      rwa [Lists, hchildren _ (Nat.lt_of_le_of_lt (h.reaches_le ih) ha)] at hlists
  · intro hreaches
    induction hreaches with
    | refl => exact .refl
    | tail hbefore hlists ih =>
      refine ih.tail ?_
      rwa [Lists, hchildren _ (Nat.lt_of_le_of_lt (h.reaches_le hbefore) ha)]

theorem Apart.symm (h : t.Apart a b) : t.Apart b a := fun c hb ha => h c ha hb

theorem Apart.ne (h : t.Apart a b) : a ≠ b := by
  rintro rfl
  exact h a .refl .refl

theorem Forest.nodup (h : t.Forest low ids) : ids.Nodup := h.apart.imp Apart.ne

theorem Forest.nil : t.Forest low [] := ⟨nofun, .nil⟩

theorem Forest.apart_of_mem (h : t.Forest low ids) (ha : a ∈ ids) (hb : b ∈ ids) (hne : a ≠ b) :
    t.Apart a b :=
  have : Std.Symm t.Apart := ⟨fun _ _ hab => Apart.symm hab⟩
  h.apart.forall ha hb hne

theorem Forest.perm (h : t.Forest low ids) {ids' : List NodeId} (hperm : ids.Perm ids') :
    t.Forest low ids' :=
  ⟨fun id hid => h.formed id (hperm.mem_iff.mpr hid),
    (hperm.pairwise_iff fun hab => Apart.symm hab).mp h.apart⟩

/-- A tree of nodes below an index has nothing in common with one of nodes from it on. -/
theorem Formed.apart {high : Nat} (ht : t.Descending) (ha : a < high) (hb : t.Formed high b) :
    t.Apart a b := by
  intro c hac hbc
  exact Nat.lt_irrefl _ (Nat.lt_of_le_of_lt (Nat.le_trans (hb.low_le c hbc) (ht.reaches_le hac)) ha)

theorem Formed.mono {low' : Nat} (h : t.Formed low id) (hle : low' ≤ low) : t.Formed low' id :=
  ⟨h.lt_size, h.next, fun b hb => Nat.le_trans hle (h.low_le b hb), h.linked⟩

theorem Forest.mono {low' : Nat} (h : t.Forest low ids) (hle : low' ≤ low) : t.Forest low' ids :=
  ⟨fun id hid => (h.formed id hid).mono hle, h.apart⟩

/-- A node below one that heads a well-formed tree heads one itself, if it stands last. -/
theorem Formed.of_reaches (ht : t.Descending) (h : t.Formed low a) (hreaches : t.Reaches a b)
    (hnext : t.next? b = none) : t.Formed low b :=
  ⟨Nat.lt_of_le_of_lt (ht.reaches_le hreaches) h.lt_size, hnext,
    fun c hc => h.low_le c (hreaches.trans hc), fun c hc => h.linked c (hreaches.trans hc)⟩

theorem LinkedAt.congr (h : t.LinkedAt id) (hchildren : u.children id = t.children id)
    (hnodes : ∀ child ∈ t.children id, u.node? child = t.node? child) : u.LinkedAt id := by
  intro i child hchild
  rw [hchildren] at hchild ⊢
  have hnode := hnodes child (List.mem_of_getElem? hchild)
  simp only [parent?, previous?, next?, hnode]
  exact h i child hchild

/-- Well-formed trees stay so while the nodes that were there are not touched. -/
theorem Formed.kept (ht : t.Descending) (hagrees : AgreesBelow t.size t u) (hsize : t.size ≤ u.size)
    (h : t.Formed low id) : u.Formed low id := by
  have hchildren (id : NodeId) (hid : id < t.size) : u.children id = t.children id := by
    rw [children, children, hagrees id hid]
  have hreaches (b : NodeId) : u.Reaches id b ↔ t.Reaches id b := ht.reaches_iff hchildren h.lt_size
  refine ⟨Nat.lt_of_lt_of_le h.lt_size hsize, ?_, fun b hb => h.low_le b ((hreaches b).mp hb), fun b hb => ?_⟩
  · rw [next?, hagrees id h.lt_size]
    exact h.next
  · have hold := (hreaches b).mp hb
    have hlt := Nat.lt_of_le_of_lt (ht.reaches_le hold) h.lt_size
    exact (h.linked b hold).congr (hchildren b hlt) fun child hchild =>
      hagrees child (Nat.lt_trans (ht b child hchild) hlt)

theorem Forest.kept (ht : t.Descending) (hagrees : AgreesBelow t.size t u) (hsize : t.size ≤ u.size)
    (h : t.Forest low ids) : u.Forest low ids := by
  have hchildren (id : NodeId) (hid : id < t.size) : u.children id = t.children id := by
    rw [children, children, hagrees id hid]
  refine ⟨fun id hid => (h.formed id hid).kept ht hagrees hsize, ?_⟩
  refine h.apart.imp_of_mem fun {a b} ha hb hab c hac hbc => ?_
  exact hab c ((ht.reaches_iff hchildren (h.formed a ha).lt_size).mp hac)
    ((ht.reaches_iff hchildren (h.formed b hb).lt_size).mp hbc)

/-- A tree that was added later joins a forest. -/
theorem Forest.append_later (ht : t.Descending) {high : Nat} {later : List NodeId}
    (h : t.Forest low ids) (hids : ∀ id ∈ ids, id < high) (hlater : t.Forest high later) (hle : low ≤ high) :
    t.Forest low (ids ++ later) := by
  refine ⟨fun id hid => ?_, List.pairwise_append.mpr ⟨h.apart, hlater.apart, fun a ha b hb => ?_⟩⟩
  · rcases List.mem_append.mp hid with hid | hid
    · exact h.formed id hid
    · exact (hlater.formed id hid).mono hle
  · exact Formed.apart ht (hids a ha) (hlater.formed b hb)

theorem descending_push (ht : t.Descending) (kind : NodeKind) (span : Span)
    (hchildren : ∀ child ∈ children, child < t.size) : (t.push kind span children).Descending := by
  intro id child hchild
  rw [children_push] at hchild
  split at hchild
  · next heq =>
    subst heq
    exact hchildren child hchild
  · exact ht id child hchild

/-- A node above a forest heads a well-formed tree. -/
theorem Forest.push (ht : t.Descending) (h : t.Forest low children) (hlow : low ≤ t.size) (kind : NodeKind)
    (span : Span) : (t.push kind span children).Formed low t.size := by
  have hlt (child : NodeId) (hchild : child ∈ children) : child < t.size := (h.formed child hchild).lt_size
  have hnew := descending_push ht kind span hlt
  have hold (id : NodeId) (hid : id < t.size) : (t.push kind span children).children id = t.children id :=
    (t.grows_push kind span children).children_eq hid
  have htop : (t.push kind span children).children t.size = children := by
    rw [children_push, if_pos rfl]
  -- What is reached from the new node: itself, and what its children reach.
  have hreaches (b : NodeId) (hb : (t.push kind span children).Reaches t.size b) :
      b = t.size ∨ ∃ child ∈ children, t.Reaches child b := by
    rcases Relation.ReflTransGen.cases_head hb with heq | ⟨child, hlists, hrest⟩
    · exact .inl heq.symm
    · rw [Lists, htop] at hlists
      exact .inr ⟨child, hlists, (ht.reaches_iff hold (hlt child hlists)).mp hrest⟩
  refine ⟨by simp, ?_, fun b hb => ?_, fun b hb => ?_⟩
  · have hmem : t.size ∉ children := fun hmem => Nat.lt_irrefl _ (hlt _ hmem)
    rw [next?, node?, Tree.push, getElem?_link_of_not_mem _ hmem (by simp), size, Array.getElem?_push_size]
    rfl
  · rcases hreaches b hb with rfl | ⟨child, hchild, hbelow⟩
    · exact hlow
    · exact (h.formed child hchild).low_le b hbelow
  · rcases hreaches b hb with rfl | ⟨child, hchild, hbelow⟩
    · intro i child hchild
      rw [htop] at hchild ⊢
      have hmem := List.mem_of_getElem? hchild
      obtain ⟨n, hn⟩ : ∃ n, t.nodes[child]? = some n := ⟨_, Array.getElem?_eq_getElem (hlt child hmem)⟩
      have hnext : n.next = none := by
        have := (h.formed child hmem).next
        rwa [next?, node?, hn] at this
      have hnode : (t.push kind span children).node? child =
          some { n with parent := some t.size
                        previous := if i = 0 then none else children[i - 1]?
                        next := children[i + 1]? } := by
        rw [node?, Tree.push, getElem?_link_child _ h.nodup (by simp) hchild, Array.getElem?_push_lt (hlt child hmem),
          ← Array.getElem?_eq_getElem (hlt child hmem), hn]
        simp [hnext]
      simp [parent?, previous?, next?, hnode]
    · have hble := ht.reaches_le hbelow
      have hblt := Nat.lt_of_le_of_lt hble (hlt child hchild)
      refine ((h.formed child hchild).linked b hbelow).congr (hold b hblt) fun grandchild hgrand => ?_
      refine node?_push_of_not_mem kind span (Nat.lt_trans (ht b _ hgrand) hblt) fun hmem => ?_
      -- A grandchild that is a child as well would be reached from two children, or from itself.
      have hgrandreached : t.Reaches child grandchild := hbelow.tail hgrand
      by_cases hsame : child = grandchild
      · exact absurd (ht b _ hgrand) (Nat.not_lt.mpr (hsame ▸ hble))
      · exact h.apart_of_mem hchild hmem hsame grandchild hgrandreached .refl

end Tree

end ModelText.Template
