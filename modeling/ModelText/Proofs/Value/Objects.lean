import ModelText.Evaluation.Step
import ModelText.Proofs.Value.Texts

/-!
# Objects in values

Values get their objects from the model: from features, from the containment and from texts that name an
object. Converting, accumulating and combining values makes no other objects.
-/

namespace ModelText

variable {O : ObjectId → Prop}

/-- A set of objects that nothing in a model leads out of. -/
structure Accessor.Encloses (a : Accessor) (O : ObjectId → Prop) : Prop where
  feature : ∀ {object name value}, O object → a.feature object name = .ok (some value) →
    ∀ {id}, .object id ∈ value.leaves → O id
  named : ∀ {text id}, a.lookup text = some id → O id
  parent : ∀ {object id}, O object → a.parent object = some id → O id
  children : ∀ {object id}, O object → id ∈ a.children object → O id

/-- Whether a scalar is no object outside of `O`. -/
def Scalar.Within (O : ObjectId → Prop) : Scalar → Prop
  | .object id => O id
  | _ => True

/-- Whether all objects in a list are in `O`. -/
def ItemList.Within (O : ObjectId → Prop) (l : ItemList) : Prop := ∀ item ∈ l.items, item.value.Within O

/-- Whether all objects in a value are in `O`. -/
def Value.Within (O : ObjectId → Prop) : Value → Prop
  | .scalar s => s.Within O
  | .list l => l.Within O

/-- Whether all objects in a value with provenance are in `O`. -/
def Datum.Within (O : ObjectId → Prop) (d : Datum) : Prop := d.value.Within O

theorem Scalar.within_true (s : Scalar) : s.Within fun _ => True := by cases s <;> exact ⟨⟩

theorem Datum.within_true (d : Datum) : Datum.Within (fun _ => True) d := by
  obtain ⟨value, _, _, _⟩ := d
  cases value with
  | scalar s => exact s.within_true
  | list l => exact fun item _ => item.value.within_true

theorem Accessor.encloses_true (a : Accessor) : a.Encloses fun _ => True :=
  ⟨fun _ _ _ _ => ⟨⟩, fun _ => ⟨⟩, fun _ _ => ⟨⟩, fun _ _ => ⟨⟩⟩

namespace ItemList

theorem within_empty (unique : Bool) : ItemList.Within O { unique } := by simp [ItemList.Within]

theorem Within.push (a : Accessor) {l : ItemList} (hl : l.Within O) {item : Item}
    (hitem : item.value.Within O) : (l.push a item).Within O := by
  unfold ItemList.push
  split
  · exact hl
  · intro other hother
    rcases List.mem_append.mp hother with h | h
    · exact hl other h
    · obtain rfl := List.mem_singleton.mp h
      exact hitem

theorem Within.pushDatum (a : Accessor) {l : ItemList} (hl : l.Within O) {d : Datum}
    (hd : Datum.Within O d) : (l.pushDatum a d).Within O := by
  have hfold (items : List Item) (hitems : ∀ item ∈ items, item.value.Within O) (l : ItemList)
      (hl : l.Within O) : (items.foldl (ItemList.push a) l).Within O := by
    induction items generalizing l with
    | nil => exact hl
    | cons item rest ih =>
      exact ih (fun other h => hitems other (by simp [h])) _ (hl.push a (hitems item (by simp)))
  obtain ⟨value, _, _, _⟩ := d
  cases value with
  | scalar s => exact hl.push a hd
  | list other => exact hfold other.items hd l hl

end ItemList

namespace Datum

/-! ## Conversion -/

theorem Within.object {d : Datum} (hd : d.Within O) {id : ObjectId} (h : d.value.object? = some id) : O id := by
  obtain ⟨value, _, _, _⟩ := d
  rcases value with s | l
  · cases s <;> cases h
    exact hd
  · cases h

theorem Within.toItems {d : Datum} (hd : d.Within O) : d.toItems.Within O := by
  obtain ⟨value, container, origin, log⟩ := d
  cases value with
  | list l => exact hd
  | scalar s =>
    cases s with
    | null => exact ItemList.within_empty false
    | _ =>
      intro item hitem
      obtain rfl := List.mem_singleton.mp hitem
      exact hd

theorem within_toObject {a : Accessor} (ha : a.Encloses O) {v : Value} (hv : v.Within O) :
    (v.toObject a).Within O := by
  have hscalar (s : Scalar) (hs : s.Within O) : (s.toObject a).Within O := by
    unfold Scalar.toObject
    split
    · exact hs
    · trivial
    · split
      · next hfound => exact ha.named hfound
      · trivial
  cases v with
  | scalar s => exact hscalar s hv
  | list l =>
    simp only [Value.toObject]
    split
    · next item hitem => exact hscalar _ (hv item (List.mem_of_head? hitem))
    · trivial

theorem Within.adapt {a : Accessor} (ha : a.Encloses O) {kind : Kind} {d out : Datum} (hd : d.Within O)
    (h : d.adapt a kind = .ok out) : out.Within O := by
  cases kind with
  | object => cases h; exact within_toObject ha hd
  | list => cases h; exact hd.toItems
  | text | bool | null => cases h; trivial
  | int | double =>
    obtain ⟨_, _, rfl⟩ := exists_of_map_eq_ok h
    trivial

theorem within_ofFeature {α : Type} {value : FeatureValue} (h : ∀ id, .object id ∈ value.leaves → O id)
    (parent : Traced α) : (Datum.ofFeature value parent).Within O := by
  cases value with
  | list items =>
    intro item hitem
    obtain ⟨leaf, hmem, hleaf⟩ := List.mem_filterMap.mp hitem
    obtain ⟨s, hs, rfl⟩ := Option.map_eq_some_iff.mp hleaf
    cases leaf <;> cases hs
    all_goals first | trivial | exact h _ hmem
  | object id => exact h id (List.mem_singleton.mpr rfl)
  | _ => trivial

/-! ## Accumulation -/

theorem Within.appendItem (a : Accessor) {d : Datum} (hd : d.Within O) {item : Item}
    (hitem : item.value.Within O) : (d.appendItem a item).Within O := by
  unfold Datum.appendItem
  split
  · exact hd
  · trivial
  · exact hitem
  · next l hvalue _ _ =>
    unfold Datum.Within at hd
    rw [hvalue] at hd
    exact ItemList.Within.push a hd hitem
  · trivial

theorem Within.append (a : Accessor) {d other : Datum} (hd : d.Within O) (hother : other.Within O) :
    (d.append a other).Within O := by
  unfold Datum.append
  unfold Datum.Within at hother
  split
  · next s hvalue =>
    rw [hvalue] at hother
    exact hd.appendItem a hother
  · next l hvalue =>
    rw [hvalue] at hother
    exact hother
  · next l hvalue _ =>
    rw [hvalue] at hother
    have hfold (items : List Item) (hitems : ∀ item ∈ items, item.value.Within O) (d : Datum)
        (hd : d.Within O) : (items.foldl (Datum.appendItem a) d).Within O := by
      induction items generalizing d with
      | nil => exact hd
      | cons item rest ih =>
        exact ih (fun other h => hitems other (by simp [h])) _ (hd.appendItem a (hitems item (by simp)))
    exact hfold l.items hother _ hd

end Datum

namespace Evaluation

/-! ## Operators and statements -/

theorem within_arithmetic {onDoubles : Float → Float → Float}
    {onInts : Int64 → Int64 → Except OperatorError Int64} {x y : Value} {s : Scalar}
    (h : arithmetic onDoubles onInts x y = .ok s) : s.Within O := by
  unfold arithmetic at h
  split at h
  all_goals
    obtain ⟨m, -, h⟩ := exists_of_bind_eq_ok h
    obtain ⟨n, -, h⟩ := exists_of_bind_eq_ok h
  · cases h
    trivial
  · obtain ⟨k, -, h⟩ := exists_of_bind_eq_ok h
    cases h
    trivial

theorem within_add (a : Accessor) {x y current out : Datum} (hx : x.Within O) (hy : y.Within O)
    (h : add a x y current = .ok out) : out.Within O := by
  unfold add at h
  split at h
  · cases h
    exact hx.append a hy
  · cases h
    exact hx.append a hy
  · cases h
    exact hx.append a hy
  · obtain ⟨s, hs, h⟩ := exists_of_bind_eq_ok h
    cases h
    exact within_arithmetic hs

theorem within_binary (a : Accessor) {operator : Template.Operator} {x y current out : Datum}
    (hx : x.Within O) (hy : y.Within O) (h : binary a operator x y current = .ok out) : out.Within O := by
  cases operator with
  | equal | notEqual | or | and => cases h; trivial
  | greater | less | atLeast | atMost =>
    obtain ⟨_, -, rfl⟩ := exists_of_map_eq_ok h
    trivial
  | add => exact within_add a hx hy h
  | subtract | multiply | divide =>
    obtain ⟨s, hs, rfl⟩ := exists_of_map_eq_ok h
    exact within_arithmetic hs

theorem within_literal (value : Template.Literal) (current : Datum) : (literal value current).Within O := by
  cases value <;> trivial

theorem within_featureResult (scope : Scope) (id expression : Template.NodeId) {d : Datum} (hd : d.Within O) :
    (featureResult scope id expression d).Within O := by
  obtain ⟨value, _, _, _⟩ := d
  cases value with
  | list l => exact hd
  | scalar s =>
    cases s with
    | text t => trivial
    | _ => exact hd

theorem within_indentResult (previous : Option String) {d : Datum} (hd : d.Within O) :
    (indentResult previous d).Within O := by
  unfold indentResult
  split
  · split
    · trivial
    · exact hd
  · exact hd

/-- Calls that read the frames answer values of the frames. -/
theorem within_frameCall {env : Env} {name : String} {argument? : Option Datum} {current : Datum}
    {frames : List Frame} (hcurrent : current.Within O)
    (hframes : ∀ frame ∈ frames, frame.node.Within O ∧ ∀ arg ∈ frame.args, arg.Within O) {answer : Option Datum}
    (h : frameCall env name argument? current frames = .ok answer) : ∀ d, answer = some d → d.Within O := by
  have hargument (index : Int64) : Datum.Within O ((argument frames index).getD (.null current)) := by
    cases hfound : argument frames index with
    | none => trivial
    | some d =>
      unfold argument at hfound
      split at hfound
      · obtain ⟨frame, hframe, hd⟩ := Option.bind_eq_some_iff.mp hfound
        exact (hframes frame (List.mem_of_find?_eq_some hframe)).2 d (List.mem_of_getElem? hd)
      · cases hfound
  have hselected (selector : Datum) : Datum.Within O ((selectFrame env frames selector).getD (.null current)) := by
    cases hfound : selectFrame env frames selector with
    | none => trivial
    | some d =>
      unfold selectFrame at hfound
      split at hfound
      · split at hfound
        · obtain ⟨frame, hframe, rfl⟩ := Option.map_eq_some_iff.mp hfound
          exact (hframes frame (List.mem_of_getElem? hframe)).1
        · cases hfound
      · obtain ⟨frame, hframe, rfl⟩ := Option.map_eq_some_iff.mp hfound
        exact (hframes frame (List.mem_of_find?_eq_some hframe)).1
  have hinnermost : Datum.Within O ((frames.head?.map (·.node)).getD current) := by
    cases frames with
    | nil => exact hcurrent
    | cons frame rest => exact (hframes frame List.mem_cons_self).1
  unfold frameCall at h
  rintro d rfl
  split at h
  · obtain ⟨index, -, h⟩ := exists_of_bind_eq_ok h
    cases h
    exact hargument index
  · cases h
    exact hinnermost
  · cases h
    exact hselected _
  · cases h
    trivial
  · cases h

end Evaluation

end ModelText
