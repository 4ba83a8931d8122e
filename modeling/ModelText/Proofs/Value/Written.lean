import ModelText.Proofs.Value.Lists

/-!
# The text of accumulated values

Values are appended to one another as items, as lists or as texts. In each case the plain text grows by
the text of what is appended, unless a unique list refuses an item. Here this is said for one item, and
carried over to a value with several items and to a row of values by one lemma on folds.
-/

namespace ModelText

/-! ## Steps that write -/

section Folds

variable {δ ι : Type} {f : δ → ι → δ} {text : δ → String} {own : ι → String} {Keeps : δ → ι → Prop}

/-- Each step adds to the text, at most as much as the item has, and the whole of that exactly where it
keeps the item. -/
structure WritesText (f : δ → ι → δ) (text : δ → String) (own : ι → String) (Keeps : δ → ι → Prop) :
    Prop where
  adds : ∀ d i, ∃ added, text (f d i) = text d ++ added ∧ added.length ≤ (own i).length
  keeps_iff : ∀ d i, text (f d i) = text d ++ own i ↔ Keeps d i

/-- Whether every step of a fold keeps its item. -/
def KeepsEach (f : δ → ι → δ) (Keeps : δ → ι → Prop) : δ → List ι → Prop
  | _, [] => True
  | d, i :: rest => Keeps d i ∧ KeepsEach f Keeps (f d i) rest

/-- What keeps an item in every state of an invariant keeps all of them. -/
theorem keepsEach_of_invariant {Inv : δ → Prop} {items : List ι}
    (hkeeps : ∀ d, Inv d → ∀ i ∈ items, Keeps d i) (hstep : ∀ d, Inv d → ∀ i ∈ items, Inv (f d i))
    {d : δ} (hd : Inv d) : KeepsEach f Keeps d items := by
  induction items generalizing d with
  | nil => trivial
  | cons i rest ih =>
    exact ⟨hkeeps d hd i List.mem_cons_self,
      ih (fun d hd i hi => hkeeps d hd i (List.mem_cons_of_mem _ hi))
        (fun d hd i hi => hstep d hd i (List.mem_cons_of_mem _ hi)) (hstep d hd i List.mem_cons_self)⟩

/-- What is added by a piece and a text behind it has its full length only if the piece has. -/
theorem eq_of_append_eq_append {added own rest later : String}
    (h : added ++ later = own ++ rest) (hadded : added.length ≤ own.length)
    (hlater : later.length ≤ rest.length) : added = own ∧ later = rest := by
  have hlist : added.toList ++ later.toList = own.toList ++ rest.toList := by
    simpa using congrArg String.toList h
  have hlength := congrArg List.length hlist
  simp only [List.length_append, String.length_toList] at hlength
  have hpair := List.append_inj hlist (by simp only [String.length_toList]; omega)
  exact ⟨String.toList_inj.mp hpair.1, String.toList_inj.mp hpair.2⟩

/-- A fold of steps that write is a step that writes: it keeps a list when it keeps each item. -/
theorem WritesText.foldl (h : WritesText f text own Keeps) :
    WritesText (fun d items => items.foldl f d) text (fun items => String.join (items.map own))
      (KeepsEach f Keeps) := by
  have hadds (items : List ι) (d : δ) : ∃ added, text (items.foldl f d) = text d ++ added ∧
      added.length ≤ (String.join (items.map own)).length := by
    induction items generalizing d with
    | nil => exact ⟨"", by simp, by simp⟩
    | cons i rest ih =>
      obtain ⟨added, htext, hlength⟩ := h.adds d i
      obtain ⟨later, hrest, hlater⟩ := ih (f d i)
      refine ⟨added ++ later, ?_, ?_⟩
      · rw [List.foldl_cons, hrest, htext, String.append_assoc]
      · rw [List.map_cons, String.join_cons, String.length_append, String.length_append]
        omega
  refine ⟨fun d items => hadds items d, fun d items => ?_⟩
  induction items generalizing d with
  | nil => simp [KeepsEach]
  | cons i rest ih =>
    rw [List.foldl_cons, List.map_cons, String.join_cons, KeepsEach]
    constructor
    · intro hwhole
      obtain ⟨added, htext, hlength⟩ := h.adds d i
      obtain ⟨later, hrest, hlater⟩ := hadds rest (f d i)
      rw [hrest, htext, String.append_assoc, String.append_right_inj] at hwhole
      obtain ⟨rfl, rfl⟩ := eq_of_append_eq_append hwhole hlength hlater
      exact ⟨(h.keeps_iff d i).mp htext, (ih (f d i)).mp hrest⟩
    · rintro ⟨hkeeps, hrest⟩
      rw [(ih (f d i)).mpr hrest, (h.keeps_iff d i).mpr hkeeps, String.append_assoc]

end Folds

/-! ## Items and values -/

/-- The plain text of a value is the one of its text with traces. -/
theorem Scalar.value_toText (a : Accessor) (container : Option ObjectId)
    (origin : Option Template.NodeRef) (s : Scalar) :
    (s.toText a container origin).value = s.plain a := by
  cases s <;> rfl

namespace Datum

variable (a : Accessor)

theorem value_toText (d : Datum) : (d.toText a).value = d.value.plain a := by
  obtain ⟨value, container, origin, log⟩ := d
  cases value with
  | scalar s => exact s.value_toText a container origin
  | list l =>
    have hfold (items : List Item) (text : TracedText) :
        (items.foldl (fun text item =>
          text.append (item.value.toText a item.container item.origin)) text).value =
            text.value ++ String.join (items.map fun item => item.value.plain a) := by
      induction items generalizing text with
      | nil => simp
      | cons item rest ih =>
        rw [List.foldl_cons, ih, List.map_cons, String.join_cons, TracedText.append, Scalar.value_toText,
          String.append_assoc]
    exact (hfold l.items _).trans String.empty_append

/-- Whether an accumulated value refuses an item: a unique list refuses what is equal to one of its
items, unless it is a text or null. -/
def refuses (d : Datum) (item : Item) : Bool :=
  match d.value, item.value with
  | _, .null => false
  | _, .text _ => false
  | .list l, s => l.unique && l.items.any fun earlier => earlier.value.equal a s
  | _, _ => false

/-- Whether no text is lost when an item is appended. -/
def TakesItem (d : Datum) (item : Item) : Prop := d.refuses a item = true → item.value.plain a = ""

/-- Whether no text is lost when a value is appended. -/
def Takes (d other : Datum) : Prop :=
  match d.value, other.value with
  | _, .scalar s => d.TakesItem a (other.with s)
  | .scalar .null, .list _ => True
  | _, .list l => KeepsEach (appendItem a) (TakesItem a) (d.addIssues 0 other.log) l.items

theorem plain_appendText (d : Datum) (item : Item) :
    (d.appendText a item).value.plain a = d.value.plain a ++ item.value.plain a := by
  change ((d.toText a).append _).value = _
  rw [TracedText.append, value_toText, Scalar.value_toText]

theorem plain_push (l : ItemList) (item : Item) :
    (Value.list (l.push a item)).plain a =
      if l.unique && l.items.any (fun earlier => earlier.value.equal a item.value) then
        (Value.list l).plain a
      else (Value.list l).plain a ++ item.value.plain a := by
  unfold ItemList.push
  split
  · rfl
  · simp [Value.plain]

/-- An item adds its text unless it is refused, and then nothing. -/
theorem plain_appendItem (d : Datum) (item : Item) : (d.appendItem a item).value.plain a =
    if d.refuses a item then d.value.plain a else d.value.plain a ++ item.value.plain a := by
  obtain ⟨value, container, origin, log⟩ := d
  obtain ⟨s, itemContainer, itemOrigin, itemLog⟩ := item
  cases s with
  | null => exact String.append_empty.symm
  | text t => exact plain_appendText a _ _
  | _ =>
    cases value with
    | list l => exact plain_push a l _
    | scalar own =>
      cases own with
      | null => exact String.empty_append.symm
      | _ => exact plain_appendText a _ _

theorem writes_appendItem : WritesText (appendItem a) (fun d => d.value.plain a)
    (fun item => item.value.plain a) (TakesItem a) := by
  constructor
  · intro d item
    rw [plain_appendItem]
    split
    · exact ⟨"", by simp, by simp⟩
    · exact ⟨_, rfl, Nat.le_refl _⟩
  · intro d item
    rw [plain_appendItem, TakesItem]
    split
    · next hrefuses =>
      constructor
      · intro h _
        exact ((String.append_right_inj _).mp (String.append_empty.trans h)).symm
      · intro h
        rw [h hrefuses, String.append_empty]
    · next hrefuses => simp [hrefuses]

theorem writes_append : WritesText (append a) (fun d => d.value.plain a) (fun d => d.value.plain a)
    (Takes a) := by
  have hitems := (writes_appendItem a).foldl
  have hcases (d other : Datum) : (∃ added,
      (d.append a other).value.plain a = d.value.plain a ++ added ∧
        added.length ≤ (other.value.plain a).length) ∧
      ((d.append a other).value.plain a = d.value.plain a ++ other.value.plain a ↔ d.Takes a other) := by
    obtain ⟨value, container, origin, log⟩ := d
    obtain ⟨otherValue, otherContainer, otherOrigin, otherLog⟩ := other
    cases otherValue with
    | scalar s =>
      have hstep := writes_appendItem a
      have hadds := hstep.adds ⟨value, container, origin, log⟩ ⟨s, otherContainer, otherOrigin, otherLog⟩
      have hkeeps := hstep.keeps_iff ⟨value, container, origin, log⟩ ⟨s, otherContainer, otherOrigin, otherLog⟩
      cases value <;> exact ⟨hadds, hkeeps⟩
    | list l =>
      have hadds := hitems.adds (Traced.addIssues ⟨value, container, origin, log⟩ 0 otherLog) l.items
      have hkeeps := hitems.keeps_iff (Traced.addIssues ⟨value, container, origin, log⟩ 0 otherLog) l.items
      cases value with
      | list own => exact ⟨hadds, hkeeps⟩
      | scalar own =>
        cases own with
        | null =>
          have hplain : (Value.list l).plain a = "" ++ (Value.list l).plain a := String.empty_append.symm
          exact ⟨⟨_, hplain, Nat.le_refl _⟩, iff_of_true hplain trivial⟩
        | _ => exact ⟨hadds, hkeeps⟩
  exact ⟨fun d other => (hcases d other).1, fun d other => (hcases d other).2⟩

/-! ## Values without unique lists -/

/-- Whether a value is no unique list. -/
def Admits (d : Datum) : Prop := ∀ l, d.value = .list l → l.unique = false

theorem Admits.takesItem {d : Datum} (h : d.Admits) (item : Item) : d.TakesItem a item := by
  have hrefuses : d.refuses a item = false := by
    unfold refuses
    split
    · rfl
    · rfl
    · next l hvalue _ _ => rw [h l hvalue, Bool.false_and]
    · rfl
  exact fun hrefused => absurd hrefused (by simp [hrefuses])

theorem unique_push {l : ItemList} (item : Item) (h : l.unique = false) : (l.push a item).unique = false := by
  unfold ItemList.push
  split <;> exact h

theorem Admits.appendItem {d : Datum} (h : d.Admits) (item : Item) : (d.appendItem a item).Admits :=
  IfList.appendItem (unique_push a) h item

theorem Admits.addIssues {d : Datum} (h : d.Admits) (offset : Nat) (issues : List Issue) :
    Admits (d.addIssues offset issues) := h

theorem Admits.append {d other : Datum} (h : d.Admits) (hother : other.Admits) : (d.append a other).Admits :=
  IfList.append (unique_push a) h hother

theorem Admits.keepsItems {d : Datum} (h : d.Admits) (items : List Item) :
    KeepsEach (Datum.appendItem a) (TakesItem a) d items :=
  keepsEach_of_invariant (fun _ hd item _ => Admits.takesItem a hd item)
    (fun _ hd item _ => Admits.appendItem a hd item) h

theorem Admits.takes {d : Datum} (h : d.Admits) (other : Datum) : d.Takes a other := by
  obtain ⟨value, container, origin, log⟩ := d
  obtain ⟨otherValue, _, _, otherLog⟩ := other
  cases otherValue with
  | scalar s => cases value <;> exact h.takesItem a _
  | list l =>
    have hitems := (h.addIssues 0 otherLog).keepsItems a l.items
    cases value with
    | list own => exact hitems
    | scalar own =>
      cases own with
      | null => trivial
      | _ => exact hitems

/-- Where no unique list is appended, every value keeps its text. -/
theorem keepsEach_of_admits {d : Datum} (h : d.Admits) {results : List Datum}
    (hresults : ∀ r ∈ results, r.Admits) : KeepsEach (append a) (Takes a) d results :=
  keepsEach_of_invariant (fun _ hd other _ => hd.takes a other)
    (fun _ hd other hother => hd.append a (hresults other hother)) h

end Datum

end ModelText
