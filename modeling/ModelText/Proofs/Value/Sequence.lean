import ModelText.Proofs.Value.Mapped

/-!
# Values appended one after the other

The results of the statements of a body are appended to nothing. Which of them comes first decides
what becomes of bytes without a node of their own: behind a value that is no text they belong to the
node of that value, and behind a text they belong to none.
-/

namespace ModelText

theorem Value.text?_eq_some_iff {value : Value} {t : TracedText} :
    value.text? = some t ↔ value = .scalar (.text t) := by
  cases value with
  | list l => simp [Value.text?]
  | scalar s => cases s <;> simp [Value.text?]

theorem Value.isNull_iff {value : Value} : value.isNull = true ↔ value = .scalar .null := by
  cases value with
  | list l => simp [Value.isNull]
  | scalar s => cases s <;> simp [Value.isNull]

namespace Datum

open TracedText (Aligned textClass_aligned)

variable {a : Accessor} {d : Datum} {results : List Datum}

/-- Whether a value is null, a text, or has the node that made it. -/
def Placed (d : Datum) : Prop := d.value.isNull ∨ d.value.text?.isSome ∨ d.origin.isSome

/-- Whether the first of several values that is not null is no text. -/
def leadsWithoutText (results : List Datum) : Bool :=
  (results.find? (!·.value.isNull)).any (·.value.text?.isNone)

theorem foldl_append_of_text {u : TracedText} (hu : u.Aligned) (hd : d.value = .scalar (.text u))
    (hall : ∀ r ∈ results, Datum.All Aligned r) :
    ∃ v, (results.foldl (Datum.append a) d).value = .scalar (.text v) ∧
      Continues u v (∀ r ∈ results, r.Mapped a) ∧
      ∀ r ∈ results, ∀ w, r.value = .scalar (.text w) → w.size ≤ v.size := by
  induction results generalizing d u with
  | nil => exact ⟨u, hd, .refl u (by simp), by simp⟩
  | cons r rest ih =>
    have hr := hall r (by simp)
    obtain ⟨v, hv, hcontinues, hle⟩ := append_of_text (a := a) hu hd hr
    have haligned : v.Aligned := by
      have hall : Datum.All Aligned (d.append a r) := by
        refine All.append textClass_aligned a ?_ hr
        unfold Datum.All
        rw [hd]
        exact hu
      unfold Datum.All at hall
      rw [hv] at hall
      exact hall
    obtain ⟨w, hw, hcontinues', hle'⟩ := ih haligned hv fun other h => hall other (by simp [h])
    refine ⟨w, hw, (hcontinues.trans hcontinues').congr (by simp), ?_⟩
    rintro other hmem t ht
    rcases List.mem_cons.mp hmem with rfl | hmem
    · exact Nat.le_trans (hle t ht) hcontinues'.size_le
    · exact hle' other hmem t ht

theorem foldl_append_of_sealed (hd : Datum.All Aligned d) (h : d.Sealed)
    (hall : ∀ r ∈ results, Datum.All Aligned r) :
    (results.foldl (Datum.append a) d).Sealed := by
  induction results generalizing d with
  | nil => exact h
  | cons r rest ih =>
    have hr := hall r (by simp)
    exact ih (All.append textClass_aligned a hd hr) (h.append hd hr) fun other h =>
      hall other (by simp [h])

theorem Sealed.placed (h : d.Sealed) : d.Placed := by
  obtain ⟨value, _, _, _⟩ := d
  cases value with
  | list l => exact Or.inr (Or.inr h)
  | scalar s =>
    cases s with
    | null => cases h
    | text t => exact Or.inr (Or.inl rfl)
    | _ => exact Or.inr (Or.inr h)

/-- What is said of the bytes of a body: they all have nodes exactly when the first result is no text
or each result is mapped by itself. -/
structure Accumulates (a : Accessor) (results : List Datum) (d : Datum) : Prop where
  placed : d.Placed
  whole_iff : ∀ t, d.value = .scalar (.text t) → t.size ≤ maxShift →
    (t.Whole ↔ leadsWithoutText results = true ∨ ∀ r ∈ results, r.Mapped a)
  size_le : ∀ t, d.value = .scalar (.text t) → leadsWithoutText results = false →
    ∀ r ∈ results, ∀ w, r.value = .scalar (.text w) → w.size ≤ t.size

theorem Accumulates.cons_null {r : Datum} (hr : r.value = .scalar .null)
    (h : Accumulates a results d) : Accumulates a (r :: results) d := by
  have hleads : leadsWithoutText (r :: results) = leadsWithoutText results := by
    simp [leadsWithoutText, hr, Value.isNull]
  have hmapped : r.Mapped a := by
    unfold Mapped
    rw [hr]
    exact TracedText.whole_of_size_eq_zero rfl
  refine ⟨h.placed, fun t ht hsize => ?_, fun t ht hfirst other hmem w hw => ?_⟩
  · rw [h.whole_iff t ht hsize, hleads]
    simp [hmapped]
  · rcases List.mem_cons.mp hmem with rfl | hmem
    · rw [hr] at hw
      cases hw
    · exact h.size_le t ht (hleads ▸ hfirst) other hmem w hw

/-- A text behind nothing stays without a default node, so all that follows needs its own nodes. -/
theorem accumulates_text {r : Datum} {w : TracedText} (hnull : d.value = .scalar .null)
    (horigin : d.origin = none) (hr : r.value = .scalar (.text w)) (hw : w.Aligned)
    (hall : ∀ other ∈ results, Datum.All Aligned other) :
    Accumulates a (r :: results) (results.foldl (Datum.append a) (d.append a r)) := by
  obtain ⟨value, container, origin, log⟩ := d
  subst hnull
  subst horigin
  obtain ⟨rValue, rContainer, rOrigin, rLog⟩ := r
  subst hr
  let empty : TracedText := .ofString "" container none
  have hempty : empty.Aligned := textClass_aligned.ofString "" container none
  have hvalue : (Datum.append a ⟨.scalar .null, container, none, log⟩
      ⟨.scalar (.text w), rContainer, rOrigin, rLog⟩).value = .scalar (.text (empty.append w)) := rfl
  have hfront := continues_append hempty hw
  obtain ⟨v, hv, hbehind, hle⟩ := foldl_append_of_text (a := a)
    (textClass_aligned.append hempty hw) hvalue hall
  have hleads : leadsWithoutText (⟨.scalar (.text w), rContainer, rOrigin, rLog⟩ :: results) = false :=
    rfl
  refine ⟨Or.inr (Or.inl ?_), fun t ht hsize => ?_, fun t ht _ other hmem x hx => ?_⟩
  · rw [hv]
    rfl
  · rw [hv] at ht
    cases ht
    have hboth := (hfront.trans hbehind).whole_iff hsize
    have hwhole : empty.Whole := TracedText.whole_of_size_eq_zero rfl
    have hdefault : empty.nodes.default?.isSome = false := rfl
    rw [hboth, hdefault, hleads]
    simp only [Bool.false_eq_true, false_or, hwhole, true_and, List.forall_mem_cons]
    rfl
  · rw [hv] at ht
    cases ht
    rcases List.mem_cons.mp hmem with rfl | hmem
    · cases hx
      rw [← Nat.zero_add w.size]
      refine Nat.le_trans (Nat.le_of_eq ?_) hbehind.size_le
      rw [TracedText.size_append]
      rfl
    · exact hle other hmem x hx

/-- A value that is no text makes everything behind it belong to its node. -/
theorem accumulates_other {r : Datum} (hnull : d.value = .scalar .null)
    (hr : r.value.isNull = false) (htext : r.value.text? = none) (horigin : r.origin.isSome)
    (hall : ∀ other ∈ r :: results, Datum.All Aligned other) :
    Accumulates a (r :: results) (results.foldl (Datum.append a) (d.append a r)) := by
  have hleads : leadsWithoutText (r :: results) = true := by
    simp [leadsWithoutText, hr, htext]
  obtain ⟨hall, hrest⟩ := List.forall_mem_cons.mp hall
  have hfirst : (d.append a r).Sealed ∧ Datum.All Aligned (d.append a r) := by
    obtain ⟨value, container, origin, log⟩ := d
    subst hnull
    obtain ⟨rValue, rContainer, rOrigin, rLog⟩ := r
    cases rValue with
    | list l => exact ⟨horigin, hall⟩
    | scalar s =>
      cases s with
      | null => cases hr
      | text t => cases htext
      | _ => exact ⟨horigin, hall⟩
  have hsealed := foldl_append_of_sealed (a := a) hfirst.2 hfirst.1 hrest
  refine ⟨hsealed.placed, fun t ht _ => ?_, fun t ht hfalse => ?_⟩
  · have hwhole : t.Whole := by
      unfold Sealed at hsealed
      rw [ht] at hsealed
      exact Or.inl hsealed
    simp [hwhole, hleads]
  · rw [hleads] at hfalse
    cases hfalse

/-- Appending to nothing accumulates. -/
theorem accumulates_foldl (hnull : d.value = .scalar .null) (horigin : d.origin = none)
    (hall : ∀ r ∈ results, Datum.All Aligned r) (hplaced : ∀ r ∈ results, r.Placed) :
    Accumulates a results (results.foldl (Datum.append a) d) := by
  induction results generalizing d with
  | nil =>
    refine ⟨Or.inl ?_, fun t ht => ?_, fun t ht => ?_⟩
    · rw [List.foldl_nil, hnull]
      rfl
    · rw [List.foldl_nil, hnull] at ht
      cases ht
    · rw [List.foldl_nil, hnull] at ht
      cases ht
  | cons r rest ih =>
    obtain ⟨hr, hrest⟩ := List.forall_mem_cons.mp hall
    obtain ⟨hplacedFirst, hplacedRest⟩ := List.forall_mem_cons.mp hplaced
    rw [List.foldl_cons]
    cases htext : r.value.text? with
    | some w =>
      have hr' := Value.text?_eq_some_iff.mp htext
      have hw : w.Aligned := by
        unfold Datum.All at hr
        rw [hr'] at hr
        exact hr
      exact accumulates_text hnull horigin hr' hw hrest
    | none =>
      cases hisNull : r.value.isNull with
      | true =>
        have hr' := Value.isNull_iff.mp hisNull
        have hsame : d.append a r = d.addIssues 0 r.log := by
          obtain ⟨_, _, _, _⟩ := d
          obtain ⟨_, _, _, _⟩ := r
          subst hnull
          subst hr'
          rfl
        rw [hsame]
        have hnull' : (d.addIssues 0 r.log).value = .scalar .null := hnull
        exact (ih hnull' horigin hrest hplacedRest).cons_null hr'
      | false =>
        refine accumulates_other hnull hisNull htext ?_ hall
        simpa [Placed, htext, hisNull] using hplacedFirst

end Datum

end ModelText
