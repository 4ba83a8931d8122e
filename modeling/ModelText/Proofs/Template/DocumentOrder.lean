import Mathlib.Data.List.Nodup
import ModelText.Proofs.Watched.Scripts

/-!
# Trees in the order of the text

Whatever a text holds, what is reached from its root is a tree: its links and its lists of children say the
same, and every node is listed once. A node lies in the one that lists it, and siblings lie one behind the
other. So the way down the tree, from child to child, is a way through the text from its start to its end.
-/

namespace ModelText

open Template

namespace Template

namespace Tree

variable {t : Tree} {low fuel : Nat} {root id a b c p q : NodeId}

/-! ## Every node is listed once -/

/-- Children that know their neighbours are listed once. -/
theorem LinkedAt.nodup (h : t.LinkedAt id) : (t.children id).Nodup := by
  have hlisted (i j : Nat) (hlt : i < j) (hj : j < (t.children id).length) :
      (t.children id)[i]? ≠ (t.children id)[j]? := by
    -- Two places of one child would have the same place in front of them, down to the first.
    induction i generalizing j with
    | zero =>
      intro heq
      obtain ⟨j, rfl⟩ : ∃ n, j = n + 1 := ⟨j - 1, by omega⟩
      obtain ⟨child, hchild⟩ : ∃ child, (t.children id)[j + 1]? = some child := ⟨_, List.getElem?_eq_getElem hj⟩
      have hfirst := (h 0 child (heq.trans hchild)).2.1
      rw [(h (j + 1) child hchild).2.1, if_neg (Nat.succ_ne_zero j), if_pos rfl, Nat.add_sub_cancel,
        List.getElem?_eq_none_iff] at hfirst
      omega
    | succ i ih =>
      intro heq
      obtain ⟨j, rfl⟩ : ∃ n, j = n + 1 := ⟨j - 1, by omega⟩
      obtain ⟨child, hchild⟩ : ∃ child, (t.children id)[j + 1]? = some child := ⟨_, List.getElem?_eq_getElem hj⟩
      have hprevious := (h (i + 1) child (heq.trans hchild)).2.1
      rw [(h (j + 1) child hchild).2.1, if_neg (Nat.succ_ne_zero j), if_neg (Nat.succ_ne_zero i), Nat.add_sub_cancel,
        Nat.add_sub_cancel] at hprevious
      exact ih j (by omega) (by omega) hprevious.symm
  exact List.nodup_iff_getElem?_ne_getElem?.mpr hlisted

variable (ht : t.Descending)

include ht

/-- No node is reached from its children. -/
theorem Descending.not_reaches (hlists : t.Lists p c) : ¬ t.Reaches c p := fun hreaches =>
  Nat.not_lt.mpr (ht.reaches_le hreaches) (ht p c hlists)

/-- What lies below a node is what is reached from its children. -/
theorem Descending.below_iff : (t.Reaches root id ∧ id ≠ root) ↔ ∃ child ∈ t.children root, t.Reaches child id := by
  constructor
  · rintro ⟨hreaches, hne⟩
    rcases hreaches.cases_head with heq | ⟨child, hlists, hrest⟩
    · exact absurd heq.symm hne
    · exact ⟨child, hlists, hrest⟩
  · rintro ⟨child, hchild, hreaches⟩
    refine ⟨.head hchild hreaches, ?_⟩
    rintro rfl
    exact ht.not_reaches hchild hreaches

variable (h : t.Formed low root)

omit ht in
/-- A node is listed by its parent only. -/
theorem Formed.parent_unique (h : t.Formed low root) (hp : t.Reaches root p) (hq : t.Reaches root q)
    (hlists : t.Lists p c) (hlists' : t.Lists q c) : p = q := by
  obtain ⟨i, hi⟩ := List.mem_iff_getElem?.mp hlists
  obtain ⟨j, hj⟩ := List.mem_iff_getElem?.mp hlists'
  have hparent := (h.linked p hp i c hi).1
  rw [(h.linked q hq j c hj).1] at hparent
  exact (Option.some.inj hparent).symm

omit ht in
/-- Of two nodes that reach a third one, one reaches the other. -/
theorem Formed.reaches_or_reaches (h : t.Formed low root) (ha : t.Reaches root a) (hb : t.Reaches root b)
    (hac : t.Reaches a c) (hbc : t.Reaches b c) : t.Reaches a b ∨ t.Reaches b a := by
  induction hac with
  | refl => exact .inr hbc
  | @tail m c ham hlists ih =>
    rcases hbc.cases_tail with rfl | ⟨n, hbn, hlists'⟩
    · exact .inl (ham.tail hlists)
    · have hsame := h.parent_unique (ha.trans ham) (hb.trans hbn) hlists hlists'
      exact ih (hsame ▸ hbn)

include h

/-- The children of a node head trees without common nodes. -/
theorem Formed.apart_children (hid : t.Reaches root id) : (t.children id).Pairwise t.Apart := by
  have hbeside {a b : NodeId} (ha : a ∈ t.children id) (hb : b ∈ t.children id) (hne : a ≠ b) :
      ¬ t.Reaches a b := by
    intro hreaches
    rcases hreaches.cases_tail with heq | ⟨m, ham, hlists⟩
    · exact hne heq.symm
    · have hsame := h.parent_unique ((hid.tail ha).trans ham) hid hlists hb
      exact ht.not_reaches ha (hsame ▸ ham)
  refine (h.linked id hid).nodup.pairwise_of_forall_ne fun a ha b hb hne c hac hbc => ?_
  rcases h.reaches_or_reaches (hid.tail ha) (hid.tail hb) hac hbc with hab | hba
  · exact hbeside ha hb hne hab
  · exact hbeside hb ha hne.symm hba

omit ht in
/-- Every node but the root has one place in a list of children. -/
theorem Formed.existsUnique_place (hid : t.Reaches root id) (hne : id ≠ root) :
    ∃! place : NodeId × Nat, t.Reaches root place.1 ∧ (t.children place.1)[place.2]? = some id := by
  rcases hid.cases_tail with heq | ⟨p, hp, hlists⟩
  · exact absurd heq hne
  · obtain ⟨i, hi⟩ := List.mem_iff_getElem?.mp hlists
    refine ⟨(p, i), ⟨hp, hi⟩, ?_⟩
    rintro ⟨q, j⟩ ⟨hq, hj⟩
    dsimp only at hq hj
    obtain rfl := h.parent_unique hq hp (List.mem_of_getElem? hj) hlists
    have hlt := (List.getElem?_eq_some_iff.mp hj).1
    rw [(List.getElem?_inj hlt (h.linked q hp).nodup).mp (hj.trans hi.symm)]

/-! ## The way down the tree -/

omit h in
theorem Descending.mem_below (hfuel : id < fuel) :
    b ∈ t.below fuel id ↔ ∃ child ∈ t.children id, t.Reaches child b := by
  induction fuel generalizing id with
  | zero => exact absurd hfuel (Nat.not_lt_zero _)
  | succ fuel ih =>
    have hchild {child : NodeId} (hchild : child ∈ t.children id) :
        b ∈ child :: t.below fuel child ↔ t.Reaches child b := by
      have hlt := ht id child hchild
      rw [List.mem_cons, ih (Nat.lt_of_lt_of_le hlt (Nat.le_of_lt_succ hfuel)), ← ht.below_iff]
      constructor
      · rintro (rfl | ⟨hreaches, -⟩)
        · exact .refl
        · exact hreaches
      · intro hreaches
        by_cases heq : b = child
        · exact .inl heq
        · exact .inr ⟨hreaches, heq⟩
    rw [below, List.mem_flatMap]
    exact exists_congr fun child => and_congr_right hchild

theorem Formed.nodup_below (hid : t.Reaches root id) (hfuel : id < fuel) : (t.below fuel id).Nodup := by
  induction fuel generalizing id with
  | zero => exact absurd hfuel (Nat.not_lt_zero _)
  | succ fuel ih =>
    have hchild {child : NodeId} (hchild : child ∈ t.children id) : child < fuel :=
      Nat.lt_of_lt_of_le (ht id child hchild) (Nat.le_of_lt_succ hfuel)
    have hreached {child b : NodeId} (hmem : child ∈ t.children id) (hb : b ∈ child :: t.below fuel child) :
        t.Reaches child b := by
      rcases List.mem_cons.mp hb with rfl | hb
      · exact .refl
      · exact (ht.below_iff.mpr ((ht.mem_below (hchild hmem)).mp hb)).1
    rw [below, List.nodup_flatMap]
    refine ⟨fun child hmem => List.nodup_cons.mpr ⟨fun hself => ?_, ih (hid.tail hmem) (hchild hmem)⟩, ?_⟩
    · exact (ht.below_iff.mpr ((ht.mem_below (hchild hmem)).mp hself)).2 rfl
    · refine (h.apart_children ht hid).imp_of_mem fun {x y} hx hy hapart b hbx hby => ?_
      exact hapart b (hreached hx hbx) (hreached hy hby)

end Tree

/-! ## Trees that follow a text -/

/-- Whether a node is a call. -/
def NodeKind.isCall (kind : NodeKind) : Bool := kind matches .call _ _ _ _

namespace Tree

/-- The calls below a node, each with the offset where it starts, in the order of the tree. -/
def placedCalls (t : Tree) (root : NodeId) : List (Nat × NodeId) :=
  (t.descendants root NodeKind.isCall).map fun id => ((t.span id).start, id)

/-- What is reached from a node is a tree, and follows the text. -/
structure FollowsText (t : Tree) (root : NodeId) : Prop where
  /-- A child comes before its parent, and lies in it. -/
  inside : ∀ id, t.Reaches root id → ∀ child ∈ t.children id, child < id ∧ (t.span child).Under (t.span id)
  /-- The children of a node know it as their parent, and know their neighbours. -/
  linked : ∀ id, t.Reaches root id → t.LinkedAt id
  /-- Siblings lie one behind the other. -/
  siblings : ∀ id, t.Reaches root id →
    ((t.children id).map t.span).Pairwise fun s u => s.start ≤ u.start ∧ s.stop ≤ u.start
  /-- The root is not listed, every other node is listed once. -/
  root_unlisted : ∀ id, t.Reaches root id → root ∉ t.children id
  listed_once : ∀ id, t.Reaches root id → id ≠ root →
    ∃! place : NodeId × Nat, t.Reaches root place.1 ∧ (t.children place.1)[place.2]? = some id
  /-- The way down the tree meets every other node, each once, in the order of the text. -/
  descendants_iff : ∀ id, id ∈ t.descendants root (fun _ => true) ↔ t.Reaches root id ∧ id ≠ root
  descendants_nodup : (t.descendants root fun _ => true).Nodup
  descendants_starts : ((t.descendants root fun _ => true).map fun id => (t.span id).start).Pairwise (· ≤ ·)
  /-- Calls are met in the order that they are sorted into. -/
  calls_sorted : ((t.placedCalls root).mergeSort fun a b => a.1 < b.1 || (a.1 == b.1 && a.2 ≤ b.2)) =
    t.placedCalls root

end Tree

/-! ## Spans in order -/

namespace Draft

variable {inp : Input} {d : Draft} {low fuel : Nat} {root id a b : NodeId} (hd : d.Sound inp)

include hd

/-- What a node reaches lies in it. -/
theorem Sound.under_of_reaches (ha : a < d.tree.size) (h : d.tree.Reaches a b) :
    (d.tree.span b).Under (d.tree.span a) := by
  induction h with
  | refl => exact .refl _
  | @tail p c hbefore hlists ih =>
    have hp := Nat.lt_of_le_of_lt (hd.descending.reaches_le hbefore) ha
    exact ((hd.laid_children hp).under (List.mem_map_of_mem hlists)).trans ih

/-- One node is above another one, or ends before it. -/
def Precedes (d : Draft) (a b : NodeId) : Prop :=
  (∃ child ∈ d.tree.children a, d.tree.Reaches child b) ∨ (d.tree.span a).stop ≤ (d.tree.span b).start

theorem Sound.pairwise_below (hid : id < d.tree.size) (hfuel : id < fuel) :
    (d.tree.below fuel id).Pairwise d.Precedes := by
  induction fuel generalizing id with
  | zero => exact .nil
  | succ fuel ih =>
    have ht := hd.descending
    have hchild {child : NodeId} (hmem : child ∈ d.tree.children id) : child < d.tree.size ∧ child < fuel :=
      ⟨Nat.lt_trans (ht id child hmem) hid, Nat.lt_of_lt_of_le (ht id child hmem) (Nat.le_of_lt_succ hfuel)⟩
    have hunder {child b : NodeId} (hmem : child ∈ d.tree.children id) (hb : b ∈ child :: d.tree.below fuel child) :
        (d.tree.span b).Under (d.tree.span child) := by
      rcases List.mem_cons.mp hb with rfl | hb
      · exact .refl _
      · exact hd.under_of_reaches (hchild hmem).1 (ht.below_iff.mpr ((ht.mem_below (hchild hmem).2).mp hb)).1
    rw [Tree.below, List.pairwise_flatMap]
    refine ⟨fun child hmem => List.pairwise_cons.mpr ⟨fun b hb => .inl ((ht.mem_below (hchild hmem).2).mp hb),
      ih (hchild hmem).1 (hchild hmem).2⟩, ?_⟩
    have hsiblings := List.pairwise_map.mp (hd.laid_children hid).pairwise
    refine hsiblings.imp_of_mem fun {x y} hx hy hbefore a ha b hb => .inr ?_
    exact Nat.le_trans (hunder hx ha).stop (Nat.le_trans hbefore (hunder hy hb).start)

/-- Going down the tree, no node starts before the ones in front of it. -/
theorem Sound.start_le_of_precedes (ha : a < d.tree.size) (h : d.Precedes a b) :
    (d.tree.span a).start ≤ (d.tree.span b).start := by
  rcases h with ⟨child, hchild, hreaches⟩ | hbehind
  · exact (hd.under_of_reaches ha (.head hchild hreaches)).start
  · exact Nat.le_trans (hd.cuts_span ha).start_le_stop hbehind

/-- A call starts before the calls in it, and is not empty. -/
theorem Sound.start_lt_of_precedes {qualifier : Option Qualifier} {name : String} {filter : Option NodeId}
    {args : List NodeId} (hcall : d.tree.kind? a = some (.call qualifier name filter args)) (h : d.Precedes a b) :
    (d.tree.span a).start < (d.tree.span b).start := by
  have ha := Tree.lt_size_of_kind? hcall
  obtain ⟨n, hn⟩ := hd.exists_node ha
  have hkind : NodeKind.call qualifier name filter args = n.kind := Option.some.inj (hcall.symm.trans hn.kind)
  have hlaid := hn.sound.laid
  rw [Node.inner, ← hkind] at hlaid
  dsimp only at hlaid
  rw [← hn.span, ← hn.children] at hlaid
  rcases h with ⟨child, hchild, hreaches⟩ | hbehind
  · have hstart := (hlaid.under (List.mem_map_of_mem hchild)).start
    have hlt := Nat.lt_trans (hd.descending a child hchild) ha
    exact Nat.lt_of_lt_of_le hstart (hd.under_of_reaches hlt hreaches).start
  · exact Nat.lt_of_lt_of_le hlaid.le hbehind

theorem Sound.mem_descendants (hroot : root < d.tree.size) {p : NodeKind → Bool} :
    id ∈ d.tree.descendants root p ↔
      (d.tree.Reaches root id ∧ id ≠ root) ∧ ∃ kind, d.tree.kind? id = some kind ∧ p kind = true := by
  rw [Tree.descendants, List.mem_filter, hd.descending.mem_below (Nat.lt_succ_of_lt hroot), ← hd.descending.below_iff,
    Option.any_eq_true]

theorem Sound.calls_sorted (hroot : root < d.tree.size) :
    ((d.tree.placedCalls root).mergeSort fun a b => a.1 < b.1 || (a.1 == b.1 && a.2 ≤ b.2)) =
      d.tree.placedCalls root := by
  refine List.mergeSort_of_pairwise (List.pairwise_map.mpr ?_)
  have hbelow := (hd.pairwise_below hroot (Nat.lt_succ_of_lt hroot)).filter fun id => (d.tree.kind? id).any NodeKind.isCall
  refine hbelow.imp_of_mem fun {a b} ha _ hprecedes => ?_
  obtain ⟨kind, hkind, hcall⟩ := (Option.any_eq_true _ _).mp (List.mem_filter.mp ha).2
  cases kind with
  | call qualifier name filter args =>
    rw [decide_eq_true (hd.start_lt_of_precedes hkind hprecedes), Bool.true_or]
  | _ => cases hcall

/-- A well-formed tree of a sound draft follows the text. -/
theorem Sound.followsText (h : d.tree.Formed low root) : d.tree.FollowsText root := by
  have ht := hd.descending
  have hroot := h.lt_size
  have hsize {id : NodeId} (hid : d.tree.Reaches root id) : id < d.tree.size :=
    Nat.lt_of_le_of_lt (ht.reaches_le hid) hroot
  have hbelow := hd.pairwise_below hroot (Nat.lt_succ_of_lt hroot)
  constructor
  case inside =>
    exact fun id hid child hchild => ⟨ht id child hchild, (hd.laid_children (hsize hid)).under (List.mem_map_of_mem hchild)⟩
  case linked => exact h.linked
  case siblings =>
    intro id hid
    refine (hd.laid_children (hsize hid)).pairwise.imp_of_mem fun {s u} hs _ hbefore => ⟨?_, hbefore⟩
    obtain ⟨child, hchild, rfl⟩ := List.mem_map.mp hs
    exact Nat.le_trans (hd.cuts_span (hsize (hid.tail hchild))).start_le_stop hbefore
  case root_unlisted => exact fun id hid hlisted => ht.not_reaches hlisted hid
  case listed_once => exact fun id hid hne => h.existsUnique_place hid hne
  case descendants_iff =>
    intro id
    rw [hd.mem_descendants hroot]
    refine and_iff_left_of_imp fun hid => ?_
    obtain ⟨n, hn⟩ := hd.exists_node (hsize hid.1)
    exact ⟨n.kind, hn.kind, rfl⟩
  case descendants_nodup => exact (h.nodup_below ht .refl (Nat.lt_succ_of_lt hroot)).filter _
  case descendants_starts =>
    refine List.pairwise_map.mpr ((hbelow.filter _).imp_of_mem fun {a b} ha _ hprecedes => ?_)
    have hreached := ((hd.mem_descendants hroot).mp ha).1.1
    exact hd.start_le_of_precedes (hsize hreached) hprecedes
  case calls_sorted => exact hd.calls_sorted hroot

end Draft

/-- The names that a document calls, in the order of its tree. -/
def Document.callNamesUnsorted (d : Document) : List String :=
  ((d.tree.descendants d.root NodeKind.isCall).filterMap (Document.callName? d.tree)).foldl Document.addNew []

theorem Document.callNames_eq (d : Document)
    (h : ((d.tree.placedCalls d.root).mergeSort fun a b => a.1 < b.1 || (a.1 == b.1 && a.2 ≤ b.2)) =
      d.tree.placedCalls d.root) : d.callNames = d.callNamesUnsorted := by
  have hsorted : d.callNames = (((d.tree.placedCalls d.root).mergeSort fun a b =>
      a.1 < b.1 || (a.1 == b.1 && a.2 ≤ b.2)).filterMap fun call => callName? d.tree call.2).foldl addNew [] := rfl
  rw [hsorted, h, Tree.placedCalls, List.filterMap_map]
  rfl

open Script in
/-- Whatever a text holds, what was read from it is a tree that follows the text, and so is every part of every
script of a file, without a node in common with another part. So the calls of a document are in order. -/
theorem parsed_followsText :
    (∀ text, (parse text).tree.FollowsText (parse text).root) ∧
      (∀ name source rootType lineBreaks,
        (∀ root ∈ (File.parse name source rootType lineBreaks).scripts.flatMap Declaration.roots,
          (File.parse name source rootType lineBreaks).tree.FollowsText root) ∧
        ((File.parse name source rootType lineBreaks).scripts.flatMap Declaration.roots).Pairwise
          (File.parse name source rootType lineBreaks).tree.Apart) ∧
      ∀ content, (Document.ofString content).map Document.callNames =
        (Document.ofString content).map Document.callNamesUnsorted := by
  have htext (text : String) : (parse text).tree.FollowsText (parse text).root := by
    obtain ⟨-, e, he, htree, -, hroot⟩ := Watched.parse_spec .positions text
    rw [htree]
    exact he.followsText hroot
  refine ⟨htext, fun name source rootType lineBreaks => ?_, fun content => ?_⟩
  · obtain ⟨-, e, he, htree, -, hforest⟩ := Watched.parseFile_spec .positions name source rootType lineBreaks
    rw [htree]
    exact ⟨fun root hroot => he.followsText (hforest.forest.formed root hroot), hforest.forest.apart⟩
  · rw [Document.ofString]
    dsimp only
    split
    · exact congrArg Except.ok (Document.callNames_eq _ (htext content).calls_sorted)
    · rfl

end Template

end ModelText
