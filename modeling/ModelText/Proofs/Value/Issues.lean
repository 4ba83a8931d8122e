import ModelText.Proofs.Value.Written

/-!
# Where issues end up

An issue names a range of the text that it came with. When a value is appended to a text, its own text lands
behind that text, and its issues have to move by as many bytes. Those of a scalar other than null do. The
issues of null and those of a list itself stay where they are, while the issues of the items of a list move
to where the text of their item lands.
-/

namespace ModelText

/-! ## Moved issues -/

/-- Whether moving issues by `offset` does not change them: it is zero, or they are behind all offsets. -/
def Unmoved (offset : Nat) (issues : List Issue) : Prop :=
  ∀ issue ∈ issues, offset = 0 ∨ maxOffset ≤ issue.span.start ∧ maxOffset ≤ issue.span.stop

theorem Span.shift_eq_shift_zero_iff (s : Span) (delta : Nat) :
    s.shift delta = s.shift (0 : Nat) ↔ delta = 0 ∨ maxOffset ≤ s.start ∧ maxOffset ≤ s.stop := by
  simp only [shift, moveOffset, Span.mk.injEq]
  omega

theorem length_shiftIssues (offset : Nat) (issues : List Issue) :
    (shiftIssues offset issues).length = issues.length := List.length_map ..

theorem shiftIssues_eq_iff (offset : Nat) (issues : List Issue) :
    shiftIssues 0 issues = shiftIssues offset issues ↔ Unmoved offset issues := by
  unfold shiftIssues Unmoved
  rw [List.map_inj_left]
  refine forall₂_congr fun issue _ => ?_
  rw [← issue.span.shift_eq_shift_zero_iff offset]
  simp only [Issue.mk.injEq, true_and, and_true]
  exact eq_comm

/-! ## Items behind a text -/

variable (a : Accessor)

/-- The issues of items that are appended to a text of `size` bytes, those of each item moved to where
`place` says. -/
def itemIssues (place : Item → Nat → Nat) : Nat → List Item → List Issue
  | _, [] => []
  | size, item :: rest => shiftIssues (place item size) item.log ++
      itemIssues place (size + (item.value.plain a).utf8ByteSize) rest

/-- Where the text of an item lands: behind the text in front of it. -/
def landing (_ : Item) (size : Nat) : Nat := size

/-- How far the issues of an item are moved: those of null are not. -/
def displacement (item : Item) (size : Nat) : Nat := if item.value.kind = .null then 0 else size

/-- Whether the issues of items that are null are right without being moved. -/
def NullsUnmoved : Nat → List Item → Prop
  | _, [] => True
  | size, item :: rest => (item.value.kind = .null → Unmoved size item.log) ∧
      NullsUnmoved (size + (item.value.plain a).utf8ByteSize) rest

theorem itemIssues_eq_iff (size : Nat) (items : List Item) :
    itemIssues a displacement size items = itemIssues a landing size items ↔ NullsUnmoved a size items := by
  induction items generalizing size with
  | nil => exact iff_of_true rfl trivial
  | cons item rest ih =>
    rw [itemIssues, itemIssues, NullsUnmoved, ← ih]
    have hitem : shiftIssues (displacement item size) item.log = shiftIssues (landing item size) item.log ↔
        (item.value.kind = .null → Unmoved size item.log) := by
      unfold displacement landing
      split
      · next hnull => rw [shiftIssues_eq_iff, forall_prop_of_true hnull]
      · next hother => exact iff_of_true rfl fun hnull => absurd hnull hother
    rw [← hitem]
    constructor
    · intro h
      exact List.append_inj h (by rw [length_shiftIssues, length_shiftIssues])
    · rintro ⟨hfirst, hrest⟩
      rw [hfirst, hrest]

theorem itemIssues_eq_nil_iff (place : Item → Nat → Nat) (size : Nat) (items : List Item) :
    itemIssues a place size items = [] ↔ ∀ item ∈ items, item.log = [] := by
  induction items generalizing size with
  | nil => exact iff_of_true rfl nofun
  | cons item rest ih =>
    rw [itemIssues, List.append_eq_nil_iff, ih, List.forall_mem_cons, shiftIssues, List.map_eq_nil_iff]

namespace Datum

variable {a} {d other : Datum} {t : TracedText}

/-- An item is written behind a text, and its issues go along unless it is null. -/
theorem appendItem_behind_text (h : d.value = .scalar (.text t)) (item : Item) :
    ∃ u, (d.appendItem a item).value = .scalar (.text u) ∧
      u.size = t.size + (item.value.plain a).utf8ByteSize ∧
      (d.appendItem a item).log = d.log ++ shiftIssues (displacement item t.size) item.log := by
  obtain ⟨value, container, origin, log⟩ := d
  subst h
  obtain ⟨s, itemContainer, itemOrigin, itemLog⟩ := item
  have hsize (s : Scalar) : (t.append (s.toText a itemContainer itemOrigin)).size =
      t.size + (s.plain a).utf8ByteSize := by
    rw [← s.value_toText a itemContainer itemOrigin]
    exact String.utf8ByteSize_append
  cases s with
  | null => exact ⟨t, rfl, rfl, rfl⟩
  | _ => exact ⟨_, rfl, hsize _, rfl⟩

/-- The issues of items go to where their texts land, apart from those of null. -/
theorem log_foldl_appendItem (h : d.value = .scalar (.text t)) (items : List Item) :
    (items.foldl (appendItem a) d).log = d.log ++ itemIssues a displacement t.size items := by
  induction items generalizing d t with
  | nil => exact (List.append_nil _).symm
  | cons item rest ih =>
    obtain ⟨u, hu, hsize, hlog⟩ := appendItem_behind_text (a := a) h item
    rw [List.foldl_cons, ih hu, hlog, itemIssues, List.append_assoc, hsize]

/-- The items of a list, and no items of a scalar. -/
def listItems (other : Datum) : List Item := (other.value.list?.map (·.items)).getD []

/-- How far the own issues of a value are moved: those of null and of a list are not. -/
def ownDisplacement (other : Datum) (size : Nat) : Nat :=
  if other.value.kind = .null ∨ other.value.kind = .list then 0 else size

/-- The issues of a value as they are recorded behind a text of `size` bytes. -/
def recordedIssues (a : Accessor) (size : Nat) (other : Datum) : List Issue :=
  shiftIssues (other.ownDisplacement size) other.log ++ itemIssues a displacement size other.listItems

/-- The issues of a value, its own ones and those of its items, each moved to where the text that it came
with lands behind a text of `size` bytes. -/
def landedIssues (a : Accessor) (size : Nat) (other : Datum) : List Issue :=
  shiftIssues size other.log ++ itemIssues a landing size other.listItems

/-- Whether the own issues of a value are right behind a text of `size` bytes: those of null and of a list
must not need to move. -/
def OwnIssuesFollow (size : Nat) (other : Datum) : Prop :=
  other.value.kind = .null ∨ other.value.kind = .list → Unmoved size other.log

theorem shiftIssues_ownDisplacement_iff (size : Nat) (other : Datum) :
    shiftIssues (other.ownDisplacement size) other.log = shiftIssues size other.log ↔
      other.OwnIssuesFollow size := by
  unfold ownDisplacement OwnIssuesFollow
  split
  · next hkept => rw [shiftIssues_eq_iff, forall_prop_of_true hkept]
  · next hmoved => exact iff_of_true rfl fun hkept => absurd hkept hmoved

theorem log_append (h : d.value = .scalar (.text t)) (other : Datum) :
    (d.append a other).log = d.log ++ recordedIssues a t.size other := by
  obtain ⟨value, container, origin, log⟩ := d
  subst h
  obtain ⟨otherValue, otherContainer, otherOrigin, otherLog⟩ := other
  cases otherValue with
  | scalar s =>
    have hown := List.append_nil (shiftIssues (ownDisplacement
      ⟨.scalar s, otherContainer, otherOrigin, otherLog⟩ t.size) otherLog)
    cases s <;> exact congrArg (log ++ ·) hown.symm
  | list l =>
    have hitems := log_foldl_appendItem (a := a)
      (d := Traced.addIssues ⟨.scalar (.text t), container, origin, log⟩ 0 otherLog) rfl l.items
    exact hitems.trans (List.append_assoc ..)

theorem recordedIssues_eq_shift_iff (size : Nat) (other : Datum) :
    recordedIssues a size other = shiftIssues size other.log ↔
      other.OwnIssuesFollow size ∧ ∀ item ∈ other.listItems, item.log = [] := by
  rw [← shiftIssues_ownDisplacement_iff, ← itemIssues_eq_nil_iff a displacement size, recordedIssues]
  constructor
  · intro h
    exact List.append_inj (h.trans (List.append_nil _).symm) (by rw [length_shiftIssues, length_shiftIssues])
  · rintro ⟨hown, hitems⟩
    rw [hown, hitems, List.append_nil]

theorem recordedIssues_eq_landed_iff (size : Nat) (other : Datum) :
    recordedIssues a size other = landedIssues a size other ↔
      other.OwnIssuesFollow size ∧ NullsUnmoved a size other.listItems := by
  rw [← shiftIssues_ownDisplacement_iff, ← itemIssues_eq_iff, recordedIssues, landedIssues]
  constructor
  · intro h
    exact List.append_inj h (by rw [length_shiftIssues, length_shiftIssues])
  · rintro ⟨hown, hitems⟩
    rw [hown, hitems]

/-- What becomes of the issues of a value that is appended to a text. -/
structure IssuesBehind (a : Accessor) (d : Datum) (t : TracedText) (other : Datum) : Prop where
  /-- The text of the value lands behind the text. -/
  lands : (d.append a other).value.plain a = t.value ++ other.value.plain a
  /-- Every issue is recorded, those of null and of a list itself without being moved. -/
  recorded : (d.append a other).log = d.log ++ recordedIssues a t.size other
  /-- The log goes on with the issues of the value itself, moved by the size of the text, exactly when those
  of null and of a list need not move and no item has any. -/
  own_iff : (d.append a other).log = d.log ++ shiftIssues t.size other.log ↔
    other.OwnIssuesFollow t.size ∧ ∀ item ∈ other.listItems, item.log = []
  /-- Every issue gets to where the text that it came with lands exactly when those of null and of a list
  need not move. -/
  landed_iff : (d.append a other).log = d.log ++ landedIssues a t.size other ↔
    other.OwnIssuesFollow t.size ∧ NullsUnmoved a t.size other.listItems

/-- Behind a text, the issues of a scalar other than null and those of the items of a list go to where their
text lands. The issues of null and of a list itself are not moved. -/
theorem issuesBehind (a : Accessor) {d : Datum} {t : TracedText} (h : d.value = .scalar (.text t))
    (other : Datum) : IssuesBehind a d t other := by
  have hadmits : d.Admits := fun l hl => by
    rw [h] at hl
    cases hl
  have hlog := log_append (a := a) h other
  refine ⟨?_, hlog, ?_, ?_⟩
  · have hplain : d.value.plain a = t.value := by
      rw [h]
      rfl
    rw [((writes_append a).keeps_iff d other).mpr (hadmits.takes a other), hplain]
  · rw [hlog, List.append_right_inj]
    exact recordedIssues_eq_shift_iff t.size other
  · rw [hlog, List.append_right_inj]
    exact recordedIssues_eq_landed_iff t.size other

/-- A warning at the second item of a list goes behind the text and the first item. -/
theorem issuesBehind_second_item :
    let t := TracedText.ofString "Hello " none none
    let d : Datum := { value := .scalar (.text t) }
    let other : Datum :=
      { value := .list ⟨[{ value := .int 12 },
          { value := .text (.ofString "World" none none), log := [⟨.warning, "short", ⟨0, 5⟩, none⟩] }], false⟩ }
    d.value = .scalar (.text t) ∧ IssuesBehind { model := {} } d t other ∧
      (d.append { model := {} } other).log = [⟨.warning, "short", ⟨8, 13⟩, none⟩] := by
  intro t d other
  have hissues := issuesBehind { model := {} } (d := d) (t := t) rfl other
  exact ⟨rfl, hissues, by decide +kernel⟩

/-- A warning that came with null stays at the start of the text. -/
theorem append_null_not_moved :
    ¬ ∀ (a : Accessor) (d : Datum) (t : TracedText) (other : Datum), d.value = .scalar (.text t) →
      (d.append a other).log = d.log ++ shiftIssues t.size other.log := by
  intro h
  let t := TracedText.ofString "Hello " none none
  let other : Datum := { value := .scalar .null, log := [⟨.warning, "empty", ⟨0, 0⟩, none⟩] }
  exact absurd (h { model := {} } { value := .scalar (.text t) } t other rfl) (by decide +kernel)

end Datum

end ModelText
