import ModelText.Evaluation.Operator
import ModelText.Proofs.Text.Cut

/-!
# Properties of all texts in a value

A `TextClass` is a property that new texts have and that the operations on texts keep. Then the texts
in every value made from such values have it too, however the value was converted, accumulated or
combined by operators.
-/

namespace ModelText

open Template (NodeRef)

variable {P : TracedText → Prop}

/-- A property of texts that the operations on texts keep. -/
structure TextClass (P : TracedText → Prop) : Prop where
  ofString : ∀ value container origin, P (.ofString value container origin)
  highlighted : ∀ value container origin highlight,
    P (.highlighted value container origin highlight)
  ofObject : ∀ description object origin, P (.ofObject description object origin)
  append : ∀ {t other}, P t → P other → P (t.append other)
  slice : ∀ {t bounds}, P t → Text.IsCut t.value.toList bounds → P (t.slice bounds)
  reword : ∀ {t} value, P t → P (t.reword value)
  indentLines : ∀ {t} margin skipFirst, P t → P (t.indentLines margin skipFirst)
  mark : ∀ {t} node, P t → P { t with nodes := t.nodes.add node 0 t.value.utf8ByteSize }

/-- Whether the text that a scalar may be satisfies `P`. -/
def Scalar.All (P : TracedText → Prop) : Scalar → Prop
  | .text t => P t
  | _ => True

/-- Whether the texts of all items satisfy `P`. -/
def ItemList.All (P : TracedText → Prop) (l : ItemList) : Prop :=
  ∀ item ∈ l.items, item.value.All P

/-- Whether all texts in a value satisfy `P`. -/
def Value.All (P : TracedText → Prop) : Value → Prop
  | .scalar s => s.All P
  | .list l => l.All P

/-- Whether all texts in a value with provenance satisfy `P`. -/
def Datum.All (P : TracedText → Prop) (d : Datum) : Prop := d.value.All P

/-- Every text has the property that says nothing. -/
theorem TextClass.trivial : TextClass fun _ => True :=
  ⟨fun _ _ _ => ⟨⟩, fun _ _ _ _ => ⟨⟩, fun _ _ _ => ⟨⟩, fun _ _ => ⟨⟩, fun _ _ => ⟨⟩, fun _ _ => ⟨⟩,
    fun _ _ _ => ⟨⟩, fun _ _ => ⟨⟩⟩

theorem Scalar.all_true (s : Scalar) : s.All fun _ => True := by cases s <;> exact ⟨⟩

theorem Datum.all_true (d : Datum) : Datum.All (fun _ => True) d := by
  obtain ⟨value, _, _, _⟩ := d
  cases value with
  | scalar s => exact s.all_true
  | list l => exact fun item _ => item.value.all_true

theorem exists_of_map_eq_ok {ε α β : Type} {f : α → β} {x : Except ε α} {out : β}
    (h : x.map f = .ok out) : ∃ value, x = .ok value ∧ f value = out := by
  cases x with
  | ok value => exact ⟨value, rfl, Except.ok.inj h⟩
  | error e => cases h

theorem exists_of_bind_eq_ok {ε α β : Type} {f : α → Except ε β} {x : Except ε α} {out : β}
    (h : (x >>= f) = .ok out) : ∃ value, x = .ok value ∧ f value = .ok out := by
  cases x with
  | ok value => exact ⟨value, rfl, h⟩
  | error e => cases h

namespace ItemList

theorem all_empty (unique : Bool) : ItemList.All P { unique } := by simp [ItemList.All]

theorem All.push (a : Accessor) {l : ItemList} (hl : l.All P) {item : Item}
    (hitem : item.value.All P) : (l.push a item).All P := by
  unfold ItemList.push
  split
  · exact hl
  · intro other hother
    rcases List.mem_append.mp hother with h | h
    · exact hl other h
    · obtain rfl := List.mem_singleton.mp h
      exact hitem

theorem All.foldl_push (a : Accessor) {items : List Item}
    (hitems : ∀ item ∈ items, item.value.All P) {l : ItemList} (hl : l.All P) :
    (items.foldl (ItemList.push a) l).All P := by
  induction items generalizing l with
  | nil => exact hl
  | cons item rest ih =>
    exact ih (fun other h => hitems other (by simp [h])) (hl.push a (hitems item (by simp)))

theorem All.pushDatum (a : Accessor) {l : ItemList} (hl : l.All P) {d : Datum}
    (hd : Datum.All P d) : (l.pushDatum a d).All P := by
  obtain ⟨value, _, _, _⟩ := d
  cases value with
  | scalar s => exact hl.push a hd
  | list other => exact hl.foldl_push a hd

end ItemList

namespace Datum

/-! ## Conversion -/

theorem All.scalarText (hP : TextClass P) (a : Accessor) (container : Option ObjectId)
    (origin : Option NodeRef) {s : Scalar} (hs : s.All P) : P (s.toText a container origin) := by
  cases s with
  | text t => exact hs
  | object id => exact hP.ofObject _ _ _
  | _ => exact hP.ofString _ _ _

theorem All.toText (hP : TextClass P) (a : Accessor) {d : Datum} (hd : Datum.All P d) :
    P (d.toText a) := by
  obtain ⟨value, container, origin, _⟩ := d
  cases value with
  | scalar s => exact All.scalarText hP a container origin hd
  | list l =>
    have hfold (items : List Item) (hitems : ∀ item ∈ items, item.value.All P) (text : TracedText)
        (htext : P text) : P (items.foldl (fun text item =>
          text.append (item.value.toText a item.container item.origin)) text) := by
      induction items generalizing text with
      | nil => exact htext
      | cons item rest ih =>
        exact ih (fun other h => hitems other (by simp [h])) _
          (hP.append htext (All.scalarText hP a _ _ (hitems item (by simp))))
    exact hfold l.items hd _ (hP.ofString _ _ _)

theorem All.toItems {d : Datum} (hd : Datum.All P d) : d.toItems.All P := by
  obtain ⟨value, container, origin, log⟩ := d
  cases value with
  | list l => exact hd
  | scalar s =>
    cases s with
    | null => exact ItemList.all_empty false
    | _ =>
      intro item hitem
      obtain rfl := List.mem_singleton.mp hitem
      exact hd

theorem all_toObject (a : Accessor) (v : Value) : (v.toObject a).All P := by
  have hscalar (s : Scalar) : (s.toObject a).All P := by
    cases s <;> simp only [Scalar.toObject] <;> (try split) <;> trivial
  cases v with
  | scalar s => exact hscalar s
  | list l =>
    simp only [Value.toObject]
    split
    · exact hscalar _
    · trivial

theorem All.adapt (hP : TextClass P) (a : Accessor) {kind : Kind} {d out : Datum}
    (hd : Datum.All P d) (h : d.adapt a kind = .ok out) : Datum.All P out := by
  cases kind with
  | object => cases h; exact all_toObject a d.value
  | list => cases h; exact hd.toItems
  | text => cases h; exact hd.toText hP a
  | bool | null => cases h; trivial
  | int | double =>
    obtain ⟨_, _, rfl⟩ := exists_of_map_eq_ok h
    trivial

theorem all_ofFeature (hP : TextClass P) {α : Type} (value : FeatureValue) (parent : Traced α) :
    Datum.All P (Datum.ofFeature value parent) := by
  have hscalar {leaf : FeatureValue} {s : Scalar} (h : leaf.scalar? parent = some s) : s.All P := by
    cases leaf <;> cases h <;> first | trivial | exact hP.ofString _ _ _
  cases value with
  | list items =>
    intro item hitem
    obtain ⟨leaf, -, hleaf⟩ := List.mem_filterMap.mp hitem
    obtain ⟨s, hs, rfl⟩ := Option.map_eq_some_iff.mp hleaf
    exact hscalar hs
  | text s => exact hP.ofString _ _ _
  | _ => trivial

/-! ## Accumulation -/

theorem All.appendText (hP : TextClass P) (a : Accessor) {d : Datum} (hd : Datum.All P d)
    {item : Item} (hitem : item.value.All P) : Datum.All P (d.appendText a item) :=
  hP.append (hd.toText hP a) (All.scalarText hP a _ _ hitem)

theorem All.appendItem (hP : TextClass P) (a : Accessor) {d : Datum} (hd : Datum.All P d)
    {item : Item} (hitem : item.value.All P) : Datum.All P (d.appendItem a item) := by
  unfold Datum.appendItem
  split
  · exact hd
  · exact hd.appendText hP a hitem
  · exact hitem
  · next l hvalue _ _ =>
    unfold Datum.All at hd
    rw [hvalue] at hd
    exact ItemList.All.push a hd hitem
  · exact hd.appendText hP a hitem

theorem All.append (hP : TextClass P) (a : Accessor) {d other : Datum} (hd : Datum.All P d)
    (hother : Datum.All P other) : Datum.All P (d.append a other) := by
  unfold Datum.append
  unfold Datum.All at hother
  split
  · next s hvalue =>
    rw [hvalue] at hother
    exact hd.appendItem hP a hother
  · next l hvalue =>
    rw [hvalue] at hother
    exact hother
  · next l hvalue _ =>
    rw [hvalue] at hother
    have hfold (items : List Item) (hitems : ∀ item ∈ items, item.value.All P) (d : Datum)
        (hd : Datum.All P d) : Datum.All P (items.foldl (Datum.appendItem a) d) := by
      induction items generalizing d with
      | nil => exact hd
      | cons item rest ih =>
        exact ih (fun other h => hitems other (by simp [h])) _
          (hd.appendItem hP a (hitems item (by simp)))
    exact hfold l.items hother _ hd

end Datum

/-! ## Operators -/

namespace Evaluation

theorem all_arithmetic {onDoubles : Float → Float → Float}
    {onInts : Int64 → Int64 → Except OperatorError Int64} {x y : Value} {s : Scalar}
    (h : arithmetic onDoubles onInts x y = .ok s) : s.All P := by
  unfold arithmetic at h
  split at h
  all_goals
    obtain ⟨m, -, h⟩ := exists_of_bind_eq_ok h
    obtain ⟨n, -, h⟩ := exists_of_bind_eq_ok h
  · cases h
    trivial
  · obtain ⟨k, -, h⟩ := exists_of_bind_eq_ok h
    cases h
    trivial

theorem all_add (hP : TextClass P) (a : Accessor) {x y current out : Datum}
    (hx : Datum.All P x) (hy : Datum.All P y) (h : add a x y current = .ok out) :
    Datum.All P out := by
  unfold add at h
  split at h
  · cases h
    exact hx.append hP a hy
  · cases h
    exact hx.append hP a hy
  · cases h
    exact hx.append hP a hy
  · obtain ⟨s, hs, h⟩ := exists_of_bind_eq_ok h
    cases h
    exact all_arithmetic hs

theorem all_binary (hP : TextClass P) (a : Accessor) {operator : Template.Operator}
    {x y current out : Datum} (hx : Datum.All P x) (hy : Datum.All P y)
    (h : binary a operator x y current = .ok out) : Datum.All P out := by
  cases operator with
  | equal | notEqual | or | and => cases h; trivial
  | greater | less | atLeast | atMost =>
    obtain ⟨_, -, rfl⟩ := exists_of_map_eq_ok h
    trivial
  | add => exact all_add hP a hx hy h
  | subtract | multiply | divide =>
    obtain ⟨s, hs, rfl⟩ := exists_of_map_eq_ok h
    exact all_arithmetic hs

end Evaluation

end ModelText
