import Mathlib.Data.List.Induction
import ModelText.Value.Append
import ModelText.Value.Convert

/-!
# Lists in values

Lists come about by pushing items to an empty list, whatever makes them. What holds of empty lists and is kept by
pushing an item therefore holds of every list that values are made to.
-/

namespace ModelText

/-- Whether the list that a value may be satisfies `P`. -/
def Datum.IfList (P : ItemList → Prop) (d : Datum) : Prop := ∀ l, d.value = .list l → P l

theorem Datum.IfList.of_scalar {P : ItemList → Prop} {d : Datum} {s : Scalar} (h : d.value = .scalar s) :
    d.IfList P := by
  intro l hl
  rw [h] at hl
  cases hl

theorem Datum.IfList.of_list {P : ItemList → Prop} {d : Datum} {l : ItemList} (h : d.value = .list l) (hl : P l) :
    d.IfList P := by
  intro other hother
  rw [h] at hother
  cases hother
  exact hl

section Pushing

variable {a : Accessor} {P : ItemList → Prop} (hpush : ∀ {l : ItemList} (item : Item), P l → P (l.push a item))

include hpush

theorem ItemList.foldl_push_of {l : ItemList} (hl : P l) (items : List Item) : P (items.foldl (ItemList.push a) l) := by
  induction items generalizing l with
  | nil => exact hl
  | cons item rest ih => exact ih (hpush item hl)

theorem ItemList.pushDatum_of {l : ItemList} (hl : P l) (d : Datum) : P (l.pushDatum a d) := by
  unfold ItemList.pushDatum
  split
  · exact hpush _ hl
  · exact ItemList.foldl_push_of hpush hl _

namespace Datum.IfList

theorem appendItem {d : Datum} (hd : d.IfList P) (item : Item) : (d.appendItem a item).IfList P := by
  obtain ⟨value, container, origin, log⟩ := d
  obtain ⟨s, _, _, _⟩ := item
  cases s with
  | null => exact hd
  | text t => exact .of_scalar rfl
  | _ =>
    cases value with
    | list own => exact .of_list rfl (hpush _ (hd own rfl))
    | scalar own => cases own <;> exact .of_scalar rfl

theorem foldl_appendItem {d : Datum} (hd : d.IfList P) (items : List Item) :
    Datum.IfList P (items.foldl (Datum.appendItem a) d) := by
  induction items generalizing d with
  | nil => exact hd
  | cons item rest ih => exact ih (hd.appendItem hpush item)

theorem append {d other : Datum} (hd : d.IfList P) (hother : other.IfList P) : (d.append a other).IfList P := by
  obtain ⟨value, container, origin, log⟩ := d
  obtain ⟨otherValue, otherContainer, otherOrigin, otherLog⟩ := other
  cases otherValue with
  | scalar s => cases value <;> exact hd.appendItem hpush _
  | list l =>
    have hissues : Datum.IfList P (Traced.addIssues ⟨value, container, origin, log⟩ 0 otherLog) := hd
    have hitems := hissues.foldl_appendItem hpush l.items
    cases value with
    | list own => exact hitems
    | scalar own =>
      cases own with
      | null => exact hother
      | _ => exact hitems

end Datum.IfList

end Pushing

/-- A property of lists that empty lists have and that lists keep when an item is pushed to them. -/
structure ListClass (a : Accessor) (P : ItemList → Prop) : Prop where
  empty : ∀ unique, P { unique }
  push : ∀ {l : ItemList} (item : Item), P l → P (l.push a item)

namespace ListClass

variable {a : Accessor} {P : ItemList → Prop} (h : ListClass a P)

include h

/-- A list that is not unique takes in every item. -/
theorem of_items (items : List Item) : P { items } := by
  induction items using List.reverseRecOn with
  | nil => exact h.empty false
  | append_singleton items item ih => exact h.push item ih

theorem toItems {d : Datum} (hd : d.IfList P) : P d.toItems := by
  unfold Datum.toItems
  split
  · next l hl => exact hd l hl
  · exact h.empty false
  · exact h.of_items _

theorem ofFeature {α : Type} (value : FeatureValue) (parent : Traced α) :
    (Datum.ofFeature value parent).IfList P := by
  unfold Datum.ofFeature
  split
  · exact .of_list rfl (h.of_items _)
  · exact .of_scalar rfl
  · exact .of_scalar rfl

end ListClass

end ModelText
