import ModelText.Proofs.Evaluation.Outcome
import ModelText.Proofs.Value.Sequence

/-!
# Outcomes whose bytes all have nodes

Statements mark the texts that they yield and give a node to other values, but they leave the items
of lists as they are. A byte of an accumulated text is without a node only when it was written for an
item without one behind a text. `Outcome.Traced` says that this happens nowhere.
-/

namespace ModelText

open TracedText (Aligned textClass_aligned)

variable (a : Accessor)

/-- Whether the text of each item is mapped as a whole, when the value is a list. -/
def Datum.ItemsMapped (d : Datum) : Prop :=
  ∀ l, d.value = .list l → ∀ item ∈ l.items, Item.Mapped a item

variable {a}

theorem Datum.mapped_of_text {d : Datum} {t : TracedText} (h : d.value = .scalar (.text t)) :
    d.Mapped a ↔ t.Whole := by
  unfold Mapped
  rw [h]
  rfl

/-- A value that is no text is mapped when it is no list. -/
theorem Datum.Placed.mapped_iff {d : Datum} (h : d.Placed) (htext : d.value.text? = none) :
    d.Mapped a ↔ d.ItemsMapped a := by
  obtain ⟨value, container, origin, log⟩ := d
  cases value with
  | list l =>
    constructor
    · intro hmapped l' hl'
      cases hl'
      exact hmapped
    · exact fun hitems => hitems l rfl
  | scalar s =>
    have hmapped : Item.Mapped a ⟨s, container, origin, log⟩ := ?_
    · exact ⟨fun _ _ hl => absurd hl nofun, fun _ => hmapped⟩
    cases s with
    | null => exact TracedText.whole_of_size_eq_zero rfl
    | text t => cases htext
    | _ =>
      have horigin : origin.isSome := by simpa [Placed, Value.isNull, Value.text?] using h
      exact Or.inl horigin

namespace Evaluation.Outcome

mutual

/-- Whether items without a node are never written behind a text. -/
def Traced (a : Accessor) : Outcome → Prop
  | .value d => d.ItemsMapped a
  | .block current parts =>
    let d := (block current parts).result a
    if d.value.text?.isSome then
      Datum.leadsWithoutText (results a parts) = true ∨ AllTraced a parts
    else d.ItemsMapped a

/-- Whether items without a node are never written behind a text in any of the parts. -/
def AllTraced (a : Accessor) : List Outcome → Prop
  | [] => True
  | part :: rest => part.Traced a ∧ AllTraced a rest

end

theorem allTraced_iff {parts : List Outcome} :
    AllTraced a parts ↔ ∀ part ∈ parts, part.Traced a := by
  induction parts with
  | nil => simp [AllTraced]
  | cons part rest ih => simp [AllTraced, ih]

/-- What statements yield: texts of one node, null, and other values with a node. -/
inductive Sound : Outcome → Prop
  | value {d : Datum} (all : Datum.All Aligned d) (placed : d.Placed)
      (uniform : ∀ t, d.value = .scalar (.text t) → t.Uniform) : Sound (.value d)
  | block {current : Datum} {parts : List Outcome} (parts_sound : ∀ part ∈ parts, Sound part) :
      Sound (.block current parts)

/-- What holds of the value of a sound outcome: it is mapped exactly when the outcome is traced. -/
structure Described (a : Accessor) (o : Outcome) : Prop where
  all : Datum.All Aligned (o.result a)
  placed : (o.result a).Placed
  mapped_iff : (∀ t, (o.result a).value = .scalar (.text t) → t.size ≤ maxShift) →
    ((o.result a).Mapped a ↔ o.Traced a)

theorem described_value {d : Datum} (hall : Datum.All Aligned d) (hplaced : d.Placed)
    (huniform : ∀ t, d.value = .scalar (.text t) → t.Uniform) : Described a (.value d) := by
  refine ⟨hall, hplaced, fun _ => ?_⟩
  change d.Mapped a ↔ d.ItemsMapped a
  cases htext : d.value.text? with
  | none => exact hplaced.mapped_iff htext
  | some t =>
    have hvalue := Value.text?_eq_some_iff.mp htext
    rw [Datum.mapped_of_text hvalue]
    refine ⟨fun _ l hl => ?_, fun _ => (huniform t hvalue).whole⟩
    rw [hvalue] at hl
    cases hl

theorem all_foldl_append {results : List Datum} {d : Datum} (hd : Datum.All Aligned d)
    (hall : ∀ r ∈ results, Datum.All Aligned r) :
    Datum.All Aligned (results.foldl (Datum.append a) d) := by
  induction results generalizing d with
  | nil => exact hd
  | cons r rest ih =>
    exact ih (hd.append textClass_aligned a (hall r (by simp))) fun other h => hall other (by simp [h])

theorem described_block {current : Datum} {parts : List Outcome}
    (h : ∀ part ∈ parts, Described a part) : Described a (.block current parts) := by
  have hall : ∀ r ∈ results a parts, Datum.All Aligned r := by
    rw [results_eq_map]
    intro r hr
    obtain ⟨part, hpart, rfl⟩ := List.mem_map.mp hr
    exact (h part hpart).all
  have hplaced : ∀ r ∈ results a parts, r.Placed := by
    rw [results_eq_map]
    intro r hr
    obtain ⟨part, hpart, rfl⟩ := List.mem_map.mp hr
    exact (h part hpart).placed
  have hacc : Datum.Accumulates a (results a parts) ((block current parts).result a) :=
    Datum.accumulates_foldl rfl rfl hall hplaced
  refine ⟨all_foldl_append trivial hall, hacc.placed, fun hsize => ?_⟩
  cases htext : ((block current parts).result a).value.text? with
  | none =>
    rw [hacc.placed.mapped_iff htext, Traced, htext]
    rfl
  | some t =>
    have hvalue := Value.text?_eq_some_iff.mp htext
    have hfit := hsize t hvalue
    rw [Datum.mapped_of_text hvalue, hacc.whole_iff t hvalue hfit, Traced, htext]
    simp only [Option.isSome_some, if_true]
    cases hleads : Datum.leadsWithoutText (results a parts) with
    | true => simp
    | false =>
      simp only [Bool.false_eq_true, false_or]
      rw [results_eq_map] at hleads
      rw [allTraced_iff, results_eq_map, List.forall_mem_map]
      refine forall₂_congr fun part hpart => (h part hpart).mapped_iff fun w hw => ?_
      have hmem : part.result a ∈ results a parts := by
        rw [results_eq_map]
        exact List.mem_map_of_mem hpart
      have := hacc.size_le t hvalue (by rw [results_eq_map]; exact hleads) _ hmem w hw
      exact Nat.le_trans this hfit

/-- The value of what statements yield is mapped exactly when no item without a node was written
behind a text. -/
theorem Sound.described {o : Outcome} (h : o.Sound) : o.Described a := by
  induction h with
  | value all placed uniform => exact described_value all placed uniform
  | block _ ih => exact described_block ih

end Evaluation.Outcome

end ModelText
