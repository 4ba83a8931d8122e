import ModelText.Proofs.Value.Written

/-!
# Appending concatenates

A value that is no unique list grows by the whole text of whatever is appended to it. The items of a list are
appended one after the other: they make a list longer up to the first of them that is a text, which turns everything
in front of it into text.
-/

namespace ModelText.Datum

variable (a : Accessor)

/-- A value to which items are appended one after the other. -/
def appendItems (d : Datum) (items : List Item) : Datum := items.foldl (fun d item => append a d item.toDatum) d

theorem append_toDatum (d : Datum) (item : Item) : append a d item.toDatum = d.appendItem a item := by
  unfold append
  cases d.value <;> rfl

theorem appendItems_eq (d : Datum) (items : List Item) : d.appendItems a items = items.foldl (appendItem a) d := by
  simp only [appendItems, append_toDatum]

theorem appendItems_append (d : Datum) (before after : List Item) :
    d.appendItems a (before ++ after) = (d.appendItems a before).appendItems a after := List.foldl_append

/-- A list is appended item by item, behind its own issues. -/
theorem append_list {d other : Datum} {l : ItemList} (hd : d.value ≠ .scalar .null) (hother : other.value = .list l) :
    d.append a other = appendItems a (d.addIssues 0 other.log) l.items := by
  rw [appendItems_eq]
  obtain ⟨value, container, origin, log⟩ := d
  obtain ⟨otherValue, _, _, otherLog⟩ := other
  subst hother
  cases value with
  | list own => rfl
  | scalar own =>
    cases own with
    | null => exact absurd rfl hd
    | _ => rfl

/-- A text makes a text of what it is appended to, and nothing else changes the kind of a list. -/
theorem kind_appendItem {d : Datum} (hd : d.value.kind = .list ∨ d.value.kind = .text) (item : Item) :
    (d.appendItem a item).value.kind = if item.value.kind = .text then .text else d.value.kind := by
  obtain ⟨value, container, origin, log⟩ := d
  obtain ⟨s, _, _, _⟩ := item
  cases s with
  | null => rfl
  | text t => rfl
  | _ =>
    cases value with
    | list own => rfl
    | scalar own =>
      cases own with
      | text t => rfl
      | _ => exact hd.elim nofun nofun

theorem kind_appendItems {d : Datum} (hd : d.value.kind = .list ∨ d.value.kind = .text) (items : List Item) :
    (d.appendItems a items).value.kind =
      if ∃ item ∈ items, item.value.kind = .text then .text else d.value.kind := by
  rw [appendItems_eq]
  induction items generalizing d with
  | nil => rw [if_neg (by simp)]; rfl
  | cons item rest ih =>
    have hitem := kind_appendItem a hd item
    have hnext : (d.appendItem a item).value.kind = .list ∨ (d.appendItem a item).value.kind = .text := by
      rw [hitem]
      split
      · exact .inr rfl
      · exact hd
    rw [List.foldl_cons, ih hnext, hitem]
    simp only [List.mem_cons, exists_eq_or_imp]
    by_cases htext : item.value.kind = .text
    · rw [if_pos htext, ite_self, if_pos (.inl htext)]
    · simp only [htext, false_or, if_false]

/-- Items are written one behind the other. -/
theorem plain_appendItems {d : Datum} (h : d.Admits) (items : List Item) : (d.appendItems a items).value.plain a =
    d.value.plain a ++ String.join (items.map fun item => item.value.plain a) := by
  rw [appendItems_eq]
  exact ((writes_appendItem a).foldl.keeps_iff d items).mpr (h.keepsItems a items)

/-- How the text of a value grows when another one is appended. -/
structure AppendsText (d other : Datum) : Prop where
  plain : (d.append a other).value.plain a = d.value.plain a ++ other.value.plain a
  /-- Partway through the items of a list, the text so far is followed by those of the items so far. -/
  partway : ∀ (l : ItemList) (before after : List Item), d.value ≠ .scalar .null → other.value = .list l →
    l.items = before ++ after →
    (appendItems a (d.addIssues 0 other.log) before).value.plain a =
      d.value.plain a ++ String.join (before.map fun item => item.value.plain a) ∧
    d.append a other = (appendItems a (d.addIssues 0 other.log) before).appendItems a after
  /-- What is a list at first becomes a text with the first item that is one, and stays it. -/
  kind_partway : ∀ (items : List Item), d.value.kind = .list →
    (appendItems a (d.addIssues 0 other.log) items).value.kind =
      if ∃ item ∈ items, item.value.kind = .text then .text else .list

/-- A value that is no unique list grows by the text of what is appended, and the text of every value is its plain
text. -/
theorem append_concatenates {d : Datum} (h : d.Admits) (other : Datum) :
    AppendsText a d other ∧ ∀ n : Datum, (n.toText a).value = n.value.plain a := by
  refine ⟨⟨?_, ?_, ?_⟩, value_toText a⟩
  · exact ((writes_append a).keeps_iff d other).mpr (h.takes a other)
  · intro l before after hd hother hitems
    refine ⟨plain_appendItems a (h.addIssues 0 other.log) before, ?_⟩
    rw [append_list a hd hother, hitems, appendItems_append]
  · intro items hd
    have hkind := kind_appendItems a (d := d.addIssues 0 other.log) (.inl hd) items
    rwa [show (d.addIssues 0 other.log).value.kind = .list from hd] at hkind

/-- A list of a number has a list with a text in the middle appended, which turns it into text there. -/
theorem append_concatenates_mixed :
    let item (s : Scalar) : Item := { value := s }
    let mixed := [item (.int 2), item (.text (.ofString "x" none none)), item .null, item (.bool true)]
    let d : Datum := { value := .list { items := [item (.int 1)] } }
    let other : Datum := { value := .list { items := mixed, unique := true } }
    d.Admits ∧ (d.append { model := {} } other).value.plain { model := {} } = "12xtrue" := by
  intro item mixed d other
  have hadmits : d.Admits := by
    rintro l ⟨⟩
    rfl
  refine ⟨hadmits, ?_⟩
  rw [(append_concatenates { model := {} } hadmits other).1.plain]
  decide +kernel

end ModelText.Datum
