import Mathlib.Data.List.Induction
import ModelText.Service.Builtin

/-!
# Items without equal ones

A list is freed of equal items from its beginning to its end: an item is left out when one of those kept before is
equal to it. Which of two items is asked about the other one matters, since equality need not be symmetric; here an
earlier item is always asked about a later one.
-/

namespace ModelText

/-- The items without those for which `same` holds of an earlier one. -/
def distinctBy (same : Scalar → Scalar → Bool) (kept items : List Item) : List Item :=
  items.foldl (fun kept item =>
    if kept.any fun earlier => same earlier.value item.value then kept else kept ++ [item]) kept

/-- Whether no item is the same as one before it. -/
def Distinct (same : Scalar → Scalar → Bool) (items : List Item) : Prop :=
  items.Pairwise fun earlier later => same earlier.value later.value = false

/-- What is left of items when some of them are the same: the items at certain positions, which are not the same as
one another, while every other item is the same as one of these in front of it. -/
structure Reduction (same : Scalar → Scalar → Bool) (items result : List Item) (kept : List Nat) : Prop where
  ordered : kept.Pairwise (· < ·)
  at_kept : kept.map (fun i => items[i]?) = result.map some
  left_out : ∀ i item, items[i]? = some item → i ∉ kept →
    ∃ j earlier, j ∈ kept ∧ j < i ∧ items[j]? = some earlier ∧ same earlier.value item.value = true
  distinct : Distinct same result

section Reductions

variable {same : Scalar → Scalar → Bool}

theorem distinctBy_concat (items : List Item) (item : Item) : distinctBy same [] (items ++ [item]) =
    if (distinctBy same [] items).any fun earlier => same earlier.value item.value then distinctBy same [] items
    else distinctBy same [] items ++ [item] := List.foldl_append

theorem Distinct.concat {items : List Item} (h : Distinct same items) {item : Item}
    (hitem : ¬ (items.any fun earlier => same earlier.value item.value) = true) : Distinct same (items ++ [item]) := by
  refine List.pairwise_append.mpr ⟨h, List.pairwise_singleton _ _, fun earlier hearlier other hother => ?_⟩
  rw [List.mem_singleton.mp hother]
  exact Bool.eq_false_iff.mpr fun hsame => hitem (List.any_eq_true.mpr ⟨earlier, hearlier, hsame⟩)

/-- Nothing is left out of items that are not the same as one another. -/
theorem Distinct.distinctBy_eq {kept items : List Item} (h : Distinct same (kept ++ items)) :
    distinctBy same kept items = kept ++ items := by
  induction items generalizing kept with
  | nil => exact (List.append_nil kept).symm
  | cons item rest ih =>
    have hitem : ¬ (kept.any fun earlier => same earlier.value item.value) = true := by
      intro hany
      obtain ⟨earlier, hearlier, hsame⟩ := List.any_eq_true.mp hany
      have hother := (List.pairwise_append.mp h).2.2 earlier hearlier item List.mem_cons_self
      rw [hsame] at hother
      cases hother
    have hassoc : kept ++ item :: rest = kept ++ [item] ++ rest := List.append_cons ..
    rw [hassoc] at h ⊢
    rw [distinctBy, List.foldl_cons, if_neg hitem, ← distinctBy]
    exact ih h

theorem distinctBy_sublist (items : List Item) : (distinctBy same [] items).Sublist items := by
  induction items using List.reverseRecOn with
  | nil => exact .slnil
  | append_singleton items item ih =>
    rw [distinctBy_concat]
    split
    · exact ih.trans (List.sublist_append_left ..)
    · exact ih.append (.refl _)

namespace Reduction

variable {items result : List Item} {kept : List Nat} {item : Item}

theorem lt_length (h : Reduction same items result kept) {i : Nat} (hi : i ∈ kept) : i < items.length := by
  have hmem : items[i]? ∈ result.map some := h.at_kept ▸ List.mem_map_of_mem hi
  obtain ⟨item, -, hitem⟩ := List.mem_map.mp hmem
  exact (List.getElem?_eq_some_iff.mp hitem.symm).1

theorem exists_position (h : Reduction same items result kept) (hitem : item ∈ result) :
    ∃ i ∈ kept, items[i]? = some item := by
  have hmem : some item ∈ kept.map fun i => items[i]? := h.at_kept ▸ List.mem_map_of_mem hitem
  exact List.mem_map.mp hmem

/-- A further item does not change what stands at the positions that are kept. -/
theorem map_concat (h : Reduction same items result kept) (item : Item) :
    (kept.map fun i => (items ++ [item])[i]?) = result.map some := by
  rw [← h.at_kept]
  exact List.map_congr_left fun i hi => List.getElem?_append_left (h.lt_length hi)

theorem left_out_concat (h : Reduction same items result kept) {i : Nat} {other : Item} (hi : i < items.length)
    (hother : (items ++ [item])[i]? = some other) (hkept : i ∉ kept) :
    ∃ j earlier, j ∈ kept ∧ j < i ∧ (items ++ [item])[j]? = some earlier ∧
      same earlier.value other.value = true := by
  rw [List.getElem?_append_left hi] at hother
  obtain ⟨j, earlier, hj, hlt, hearlier, hsame⟩ := h.left_out i other hother hkept
  refine ⟨j, earlier, hj, hlt, ?_, hsame⟩
  rwa [List.getElem?_append_left (h.lt_length hj)]

theorem lt_or_last {i : Nat} {other : Item} (h : (items ++ [item])[i]? = some other) :
    i < items.length ∨ i = items.length ∧ other = item := by
  by_cases hi : i < items.length
  · exact .inl hi
  · have hlast : i = items.length := by
      have := (List.getElem?_eq_some_iff.mp h).1
      rw [List.length_append, List.length_singleton] at this
      omega
    subst hlast
    rw [List.getElem?_concat_length] at h
    exact .inr ⟨rfl, (Option.some.inj h).symm⟩

/-- An item behind the others is left out when it is the same as one that is kept. -/
theorem skip (h : Reduction same items result kept)
    (hitem : (result.any fun earlier => same earlier.value item.value) = true) :
    Reduction same (items ++ [item]) result kept where
  ordered := h.ordered
  at_kept := h.map_concat item
  distinct := h.distinct
  left_out i other hother hkept := by
    rcases lt_or_last hother with hi | ⟨rfl, rfl⟩
    · exact h.left_out_concat hi hother hkept
    · obtain ⟨earlier, hearlier, hsame⟩ := List.any_eq_true.mp hitem
      obtain ⟨j, hj, hposition⟩ := h.exists_position hearlier
      have hlt := h.lt_length hj
      refine ⟨j, earlier, hj, hlt, ?_, hsame⟩
      rwa [List.getElem?_append_left hlt]

/-- Otherwise it is kept as well. -/
theorem keep (h : Reduction same items result kept)
    (hitem : ¬ (result.any fun earlier => same earlier.value item.value) = true) :
    Reduction same (items ++ [item]) (result ++ [item]) (kept ++ [items.length]) where
  ordered := by
    refine List.pairwise_append.mpr ⟨h.ordered, List.pairwise_singleton _ _, fun i hi j hj => ?_⟩
    rw [List.mem_singleton.mp hj]
    exact h.lt_length hi
  at_kept := by
    rw [List.map_append, List.map_append, h.map_concat item, List.map_singleton, List.map_singleton,
      List.getElem?_concat_length]
  distinct := h.distinct.concat hitem
  left_out i other hother hkept := by
    rw [List.mem_append, List.mem_singleton, not_or] at hkept
    rcases lt_or_last hother with hi | ⟨hlast, -⟩
    · obtain ⟨j, earlier, hj, hrest⟩ := h.left_out_concat hi hother hkept.1
      exact ⟨j, earlier, List.mem_append_left _ hj, hrest⟩
    · exact absurd hlast hkept.2

end Reduction

theorem exists_reduction (items : List Item) : ∃ kept, Reduction same items (distinctBy same [] items) kept := by
  induction items using List.reverseRecOn with
  | nil => exact ⟨[], .nil, rfl, nofun, .nil⟩
  | append_singleton items item ih =>
    obtain ⟨kept, hkept⟩ := ih
    rw [distinctBy_concat]
    split
    · next hitem => exact ⟨_, hkept.skip hitem⟩
    · next hitem => exact ⟨_, hkept.keep hitem⟩

end Reductions

/-! ## Lists that items are pushed to -/

variable (a : Accessor)

theorem foldl_push_unique (kept items : List Item) :
    items.foldl (ItemList.push a) { items := kept, unique := true } =
      { items := distinctBy (Scalar.equal a) kept items, unique := true } := by
  induction items generalizing kept with
  | nil => rfl
  | cons item rest ih =>
    rw [List.foldl_cons, ItemList.push, distinctBy, List.foldl_cons, ← distinctBy, Bool.true_and]
    split
    · exact ih kept
    · exact ih (kept ++ [item])

theorem foldl_push_any (kept items : List Item) :
    items.foldl (ItemList.push a) { items := kept } = { items := kept ++ items } := by
  induction items generalizing kept with
  | nil => rw [List.append_nil]; rfl
  | cons item rest ih =>
    rw [List.foldl_cons, ItemList.push, Bool.false_and, if_neg Bool.false_ne_true, ih, List.append_assoc]
    rfl

open Service (itemsOf valuesOf collect)

theorem collect_unique (d : Datum) : collect a true (valuesOf d) =
    { items := distinctBy (Scalar.equal a) [] (itemsOf d).items, unique := true } := by
  rw [collect, valuesOf, List.foldl_map]
  exact foldl_push_unique a [] (itemsOf d).items

end ModelText
