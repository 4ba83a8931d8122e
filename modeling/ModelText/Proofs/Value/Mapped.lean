import ModelText.Proofs.Trace.Narrowest
import ModelText.Proofs.Value.Aligned

/-!
# Which bytes of an accumulated text are mapped

A text is mapped as a whole when it has a default node or when each of its bytes has a node. What is
put behind a text keeps its own nodes only, so it must be mapped as a whole by itself; what comes
after a value that is no text belongs to the node of that value.
-/

namespace ModelText

open Template (NodeRef)

namespace Trace

variable {T : Type} [DecidableEq T]

@[simp] theorem default?_add (t : Trace T) (target : T) (start stop : Nat) :
    (t.add target start stop).default? = t.default? := by
  unfold add change addSpan
  split
  · rfl
  · split <;> rfl

end Trace

namespace TracedText

variable {t other : TracedText}

/-- Whether every byte has a template node: the default node or one of its own. -/
def Whole (t : TracedText) : Prop :=
  t.nodes.default?.isSome ∨ ∀ offset < t.size, ∃ node, t.nodes.Covers node offset

/-- A text is mapped as a whole exactly when a query for any of its bytes has an answer. -/
theorem Aligned.whole_iff (h : t.Aligned) :
    t.Whole ↔ ∀ offset < t.size, (t.nodes.targetAt? offset).isSome := by
  simp only [Trace.isSome_targetAt?_iff h.nodes.wellFormed, Trace.covers_commit_iff h.nodes.isOpen,
    h.nodes.length, Whole]
  constructor
  · rintro (hdefault | hown) offset hlt
    · obtain ⟨node, hnode⟩ := Option.isSome_iff_exists.mp hdefault
      exact ⟨node, Or.inr ⟨hnode, hlt⟩⟩
    · obtain ⟨node, hc⟩ := hown offset hlt
      exact ⟨node, Or.inl hc⟩
  · intro hall
    cases hdefault : t.nodes.default? with
    | some node => exact Or.inl rfl
    | none =>
      refine Or.inr fun offset hlt => ?_
      obtain ⟨node, hc | ⟨hnode, -⟩⟩ := hall offset hlt
      · exact ⟨node, hc⟩
      · rw [hdefault] at hnode
        cases hnode

theorem size_append (t other : TracedText) : (t.append other).size = t.size + other.size :=
  String.utf8ByteSize_append

theorem Aligned.default?_append (h : t.Aligned) (other : TracedText) :
    (t.append other).nodes.default? = t.nodes.default? := by
  change (t.nodes.append other.nodes).default? = _
  rw [Trace.append_eq h.nodes.isOpen]

/-- The text behind another one has to be mapped as a whole by itself. -/
theorem Aligned.whole_append_iff (h : t.Aligned) (h' : other.Aligned)
    (hsize : (t.append other).size ≤ maxShift) :
    (t.append other).Whole ↔ t.nodes.default?.isSome ∨ t.Whole ∧ other.Whole := by
  rw [size_append] at hsize
  have hfit : t.nodes.Fits other.nodes := by
    have hlength := h.nodes.length
    have hlength' := h'.nodes.length
    have hmax : maxShift < maxOffset := by decide
    refine ⟨by omega, by omega, fun node offset hc => ?_⟩
    have := h'.nodes.inside node offset hc
    omega
  have hcovers (node : NodeRef) (offset : Nat) :
      (t.append other).nodes.Covers node offset ↔ t.nodes.Covers node offset ∨ t.size ≤ offset ∧
        (other.nodes.Covers node (offset - t.size) ∨
          other.nodes.default? = some node ∧ offset < t.size + other.size) := by
    rw [← h.nodes.length, ← h'.nodes.length]
    exact Trace.covers_append_iff h.nodes.isOpen hfit h'.nodes.wellFormed
  simp only [Whole, h.default?_append, size_append]
  cases hdefault : t.nodes.default? with
  | some node => simp
  | none =>
    simp only [Option.isSome_none, Bool.false_eq_true, false_or]
    constructor
    · intro hall
      constructor
      · intro offset hlt
        obtain ⟨node, hc⟩ := hall offset (by omega)
        rcases (hcovers node offset).mp hc with hc | ⟨hle, -⟩
        · exact ⟨node, hc⟩
        · omega
      · cases hother : other.nodes.default? with
        | some node => exact Or.inl rfl
        | none =>
          refine Or.inr fun offset hlt => ?_
          obtain ⟨node, hc⟩ := hall (t.size + offset) (by omega)
          rcases (hcovers node _).mp hc with hc | ⟨-, hc | ⟨hnode, -⟩⟩
          · have := h.nodes.inside node _ hc
            omega
          · rw [Nat.add_sub_cancel_left] at hc
            exact ⟨node, hc⟩
          · rw [hother] at hnode
            cases hnode
    · rintro ⟨hown, hother⟩ offset hlt
      by_cases hfront : offset < t.size
      · obtain ⟨node, hc⟩ := hown offset hfront
        exact ⟨node, (hcovers node offset).mpr (Or.inl hc)⟩
      · have hle := Nat.le_of_not_lt hfront
        rcases hother with hdefault | hother
        · obtain ⟨node, hnode⟩ := Option.isSome_iff_exists.mp hdefault
          exact ⟨node, (hcovers node offset).mpr (Or.inr ⟨hle, Or.inr ⟨hnode, hlt⟩⟩)⟩
        · obtain ⟨node, hc⟩ := hother (offset - t.size) (by omega)
          exact ⟨node, (hcovers node offset).mpr (Or.inr ⟨hle, Or.inl hc⟩)⟩

theorem whole_of_size_eq_zero (h : t.size = 0) : t.Whole :=
  Or.inr fun offset hlt => absurd hlt (by omega)

theorem aligned_item (a : Accessor) {item : Item} (h : item.value.All Aligned) :
    (item.value.toText a item.container item.origin).Aligned :=
  Datum.All.scalarText textClass_aligned a _ _ h

/-- Whether one node is given for all bytes: by default or by a mapping of all of them. -/
def Uniform (t : TracedText) : Prop :=
  t.nodes.default?.isSome ∨ ∃ node, ∀ offset < t.size, t.nodes.Covers node offset

theorem Uniform.whole (h : t.Uniform) : t.Whole :=
  h.imp_right fun ⟨node, hall⟩ offset hlt => ⟨node, hall offset hlt⟩

theorem Aligned.uniform_mark (h : t.Aligned) (node : NodeRef) :
    Uniform { t with nodes := t.nodes.add node 0 t.value.utf8ByteSize } :=
  Or.inr ⟨node, fun _ hlt =>
    (Trace.covers_add_iff h.nodes.isOpen).mpr (Or.inr ⟨rfl, Nat.zero_le _, hlt⟩)⟩

/-- The margins of inner lines belong to the node of the bytes around them. -/
theorem Uniform.indentLines (h : t.Uniform) (ht : t.Aligned) (margin : String) :
    (t.indentLines margin true).Uniform := by
  rcases h with hdefault | ⟨node, hall⟩
  · refine Or.inl ?_
    change (t.nodes.indent _ _).default?.isSome
    rw [Trace.indent, Trace.change_of_open ht.nodes.isOpen]
    split <;> exact hdefault
  · refine Or.inr ⟨node, fun offset hlt => ?_⟩
    let starts := Text.lineStarts true t.value
    let width := margin.utf8ByteSize
    have hcanonical := ht.nodes.wellFormed.canonical_rangesOf node
    have hsize : (Text.indentLines margin true t.value).utf8ByteSize =
        t.size + starts.length * width := Text.utf8ByteSize_indentLines margin true t.value
    change (t.nodes.indent starts width).Covers node offset
    rw [Trace.Covers, Trace.rangesOf_indent ht.nodes.wellFormed ht.nodes.isOpen]
    rcases Ranges.moved_or_inserted starts width offset with ⟨old, rfl⟩ | ⟨start, hstart, hins⟩
    · refine (Ranges.covers_indent_moved_iff hcanonical).mpr (hall old ?_)
      refine Decidable.byContradiction fun hle => ?_
      have hall : starts.countP (· ≤ old) = starts.length := by
        rw [List.countP_eq_length]
        intro start hstart
        have : start < t.size := Text.lt_size_of_mem_lineStarts hstart
        simpa using (by omega : start ≤ old)
      change Ranges.moved starts width old < (Text.indentLines margin true t.value).utf8ByteSize at hlt
      rw [Ranges.moved, hall, hsize] at hlt
      omega
    · have hmem : start ∈ Text.innerLineStarts 0 t.value.toList := by
        simpa [starts, Text.lineStarts] using hstart
      have hinner := Text.mem_innerLineStarts hmem
      have hlast : start < t.size := Text.lt_size_of_mem_lineStarts hstart
      exact (Ranges.covers_indent_inserted_iff hcanonical hins).mpr
        ⟨hinner.1, hall _ (by omega), hall _ hlast⟩

end TracedText

open TracedText (Aligned textClass_aligned)

variable (a : Accessor)

/-- Whether the text of an item is mapped as a whole. -/
def Item.Mapped (item : Item) : Prop :=
  (item.value.toText a item.container item.origin).Whole

/-- Whether the text of a value is mapped as a whole; of a list, the text of each item by itself. -/
def Datum.Mapped (d : Datum) : Prop :=
  match d.value with
  | .scalar s => Item.Mapped a (d.with s)
  | .list l => ∀ item ∈ l.items, Item.Mapped a item

namespace Datum

/-- What appending to a text `u` makes of it. -/
structure Continues (u v : TracedText) (mapped : Prop) : Prop where
  size_le : u.size ≤ v.size
  default? : v.nodes.default? = u.nodes.default?
  whole_iff : v.size ≤ maxShift → (v.Whole ↔ u.nodes.default?.isSome ∨ u.Whole ∧ mapped)

theorem Continues.refl (u : TracedText) {mapped : Prop} (h : mapped) : Continues u u mapped :=
  ⟨Nat.le_refl _, rfl, fun _ => ⟨fun hu => Or.inr ⟨hu, h⟩, fun hu => hu.elim Or.inl (·.1)⟩⟩

theorem Continues.trans {u v w : TracedText} {mapped mapped' : Prop} (h : Continues u v mapped)
    (h' : Continues v w mapped') : Continues u w (mapped ∧ mapped') := by
  refine ⟨Nat.le_trans h.size_le h'.size_le, h'.default?.trans h.default?, fun hsize => ?_⟩
  rw [h'.whole_iff hsize, h.whole_iff (Nat.le_trans h'.size_le hsize), h.default?]
  constructor
  · rintro (hd | ⟨hd | ⟨hu, hm⟩, hm'⟩)
    · exact Or.inl hd
    · exact Or.inl hd
    · exact Or.inr ⟨hu, hm, hm'⟩
  · rintro (hd | ⟨hu, hm, hm'⟩)
    · exact Or.inl hd
    · exact Or.inr ⟨Or.inr ⟨hu, hm⟩, hm'⟩

theorem Continues.congr {u v : TracedText} {mapped mapped' : Prop} (h : Continues u v mapped)
    (hiff : mapped ↔ mapped') : Continues u v mapped' :=
  ⟨h.size_le, h.default?, fun hsize => by rw [h.whole_iff hsize, hiff]⟩

theorem continues_append {u v : TracedText} (hu : u.Aligned) (hv : v.Aligned) :
    Continues u (u.append v) v.Whole :=
  ⟨by rw [TracedText.size_append]; omega, hu.default?_append v, hu.whole_append_iff hv⟩

variable {a} {d other : Datum} {u : TracedText}

theorem appendItem_of_text (hu : u.Aligned) (hd : d.value = .scalar (.text u)) {item : Item}
    (hitem : item.value.All Aligned) :
    ∃ v, (d.appendItem a item).value = .scalar (.text v) ∧ Continues u v (item.Mapped a) ∧
      ∀ w, item.value = .text w → w.size ≤ v.size := by
  obtain ⟨value, container, origin, log⟩ := d
  subst hd
  have hcontinues : Continues u (u.append (item.value.toText a item.container item.origin))
      (item.Mapped a) := continues_append hu (TracedText.aligned_item a hitem)
  obtain ⟨s, itemContainer, itemOrigin, itemLog⟩ := item
  cases s with
  | null => exact ⟨u, rfl, .refl u (TracedText.whole_of_size_eq_zero rfl), fun w hw => by cases hw⟩
  | text w' =>
    refine ⟨_, rfl, hcontinues, fun w hw => ?_⟩
    cases hw
    rw [TracedText.size_append]
    exact Nat.le_add_left ..
  | _ => exact ⟨_, rfl, hcontinues, fun w hw => by cases hw⟩

theorem foldl_appendItem_of_text {items : List Item} (hitems : ∀ item ∈ items, item.value.All Aligned)
    (hu : u.Aligned) (hd : d.value = .scalar (.text u)) :
    ∃ v, (items.foldl (Datum.appendItem a) d).value = .scalar (.text v) ∧
      Continues u v (∀ item ∈ items, item.Mapped a) := by
  induction items generalizing d u with
  | nil => exact ⟨u, hd, .refl u (by simp)⟩
  | cons item rest ih =>
    have hitem := hitems item (by simp)
    obtain ⟨v, hv, hcontinues, -⟩ := appendItem_of_text (a := a) hu hd hitem
    have haligned : v.Aligned := by
      have hall : Datum.All Aligned (d.appendItem a item) := by
        refine All.appendItem textClass_aligned a ?_ hitem
        unfold Datum.All
        rw [hd]
        exact hu
      unfold Datum.All at hall
      rw [hv] at hall
      exact hall
    obtain ⟨w, hw, hcontinues'⟩ := ih (fun other h => hitems other (by simp [h])) haligned hv
    exact ⟨w, hw, (hcontinues.trans hcontinues').congr (by simp)⟩

/-- Whatever is appended to a text, the result is a text. It is mapped as a whole when the text has a
default node, or when both parts are mapped by themselves. -/
theorem append_of_text (hu : u.Aligned) (hd : d.value = .scalar (.text u))
    (hother : Datum.All Aligned other) :
    ∃ v, (d.append a other).value = .scalar (.text v) ∧ Continues u v (other.Mapped a) ∧
      ∀ w, other.value = .scalar (.text w) → w.size ≤ v.size := by
  obtain ⟨value, container, origin, log⟩ := d
  subst hd
  obtain ⟨otherValue, otherContainer, otherOrigin, otherLog⟩ := other
  cases otherValue with
  | scalar s =>
    have hitem : (⟨s, otherContainer, otherOrigin, otherLog⟩ : Item).value.All Aligned := hother
    have hd : (⟨.scalar (.text u), container, origin, log⟩ : Datum).value = .scalar (.text u) := rfl
    obtain ⟨v, hv, hcontinues, hle⟩ := appendItem_of_text (a := a) hu hd hitem
    refine ⟨v, hv, hcontinues, fun w hw => hle w ?_⟩
    cases hw
    rfl
  | list l =>
    have hd : (Traced.addIssues ⟨.scalar (.text u), container, origin, log⟩ 0 otherLog : Datum).value =
      .scalar (.text u) := rfl
    obtain ⟨v, hv, hcontinues⟩ := foldl_appendItem_of_text (a := a) hother hu hd
    exact ⟨v, hv, hcontinues, fun w hw => by cases hw⟩

/-- Whether all that is appended to a value will belong to a node: the value is no text and has a
node, or it is a text with a default node. -/
def Sealed (d : Datum) : Prop :=
  match d.value with
  | .scalar .null => False
  | .scalar (.text t) => t.nodes.default?.isSome
  | _ => d.origin.isSome

theorem default?_toText_of_sealed (hall : Datum.All Aligned d) (h : d.Sealed) :
    (d.toText a).nodes.default?.isSome := by
  obtain ⟨value, container, origin, log⟩ := d
  cases value with
  | scalar s =>
    cases s with
    | null => cases h
    | _ => exact h
  | list l =>
    have hfold (items : List Item) (hitems : ∀ item ∈ items, item.value.All Aligned)
        (t : TracedText) (ht : t.Aligned) : (items.foldl (fun text item =>
          text.append (item.value.toText a item.container item.origin)) t).nodes.default? =
        t.nodes.default? := by
      induction items generalizing t with
      | nil => rfl
      | cons item rest ih =>
        have hitem := TracedText.aligned_item a (hitems item (by simp))
        rw [List.foldl_cons, ih (fun other h => hitems other (by simp [h])) _
          (textClass_aligned.append ht hitem), ht.default?_append]
    have hdefault := hfold l.items hall _ (textClass_aligned.ofString "" container origin)
    exact (congrArg Option.isSome hdefault).trans h

theorem Sealed.appendItem (hall : Datum.All Aligned d) (h : d.Sealed) {item : Item} :
    (d.appendItem a item).Sealed := by
  have htext : (d.appendText a item).Sealed := by
    have hdefault := (hall.toText textClass_aligned a).default?_append
      (item.value.toText a item.container item.origin)
    exact (congrArg Option.isSome hdefault).trans (default?_toText_of_sealed hall h)
  obtain ⟨value, container, origin, log⟩ := d
  obtain ⟨s, itemContainer, itemOrigin, itemLog⟩ := item
  cases value with
  | list l => cases s <;> first | exact htext | exact h
  | scalar own =>
    cases own with
    | null => cases h
    | _ => cases s <;> first | exact htext | exact h

theorem Sealed.append (hall : Datum.All Aligned d) (h : d.Sealed)
    (hother : Datum.All Aligned other) : (d.append a other).Sealed := by
  have hfold (items : List Item) (hitems : ∀ item ∈ items, item.value.All Aligned) (d : Datum)
      (hall : Datum.All Aligned d) (h : d.Sealed) :
      (items.foldl (Datum.appendItem a) d).Sealed := by
    induction items generalizing d with
    | nil => exact h
    | cons item rest ih =>
      exact ih (fun other h => hitems other (by simp [h])) _
        (All.appendItem textClass_aligned a hall (hitems item (by simp))) (h.appendItem hall)
  obtain ⟨otherValue, otherContainer, otherOrigin, otherLog⟩ := other
  cases otherValue with
  | scalar s =>
    obtain ⟨value, container, origin, log⟩ := d
    exact h.appendItem hall
  | list l =>
    obtain ⟨value, container, origin, log⟩ := d
    cases value with
    | list own => exact hfold l.items hother _ hall h
    | scalar own =>
      cases own with
      | null => cases h
      | _ => exact hfold l.items hother _ hall h

end Datum

end ModelText
