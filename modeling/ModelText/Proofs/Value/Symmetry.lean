import Mathlib.Data.List.Forall2
import Mathlib.Data.List.TakeWhile
import ModelText.Evaluation.Operator
import ModelText.Proofs.Number.Comparison
import ModelText.Proofs.Template.LiteralTexts
import ModelText.Proofs.Value.Distinct
import ModelText.Service.Builtin

/-!
# Where equality is symmetric

Of two values of different kinds, the first is converted to the kind of the second, and what a conversion leaves
out no longer tells the values apart: every positive integer is true, while truth is the integer one only. For
each pair of kinds there is a condition on the values under which both orders have the same answer, and where it
does not hold the answers differ.
-/

namespace ModelText

/-! ## Written numbers and truth values -/

theorem isNumeric_valueText (x : Float) : Template.IsNumeric (doubleText x).toList := by
  unfold doubleText
  split
  · next negative mantissa exponent _ =>
    have hfixed : ∀ c ∈ Number.dropZeros (Number.fixedPoint mantissa exponent 3), c.isDigit = true ∨ c = '.' := by
      intro c hc
      rw [Number.dropZeros, List.mem_reverse] at hc
      exact Template.numeric_withPoint (fun _ hd => Template.isDigit_of_mem_digitChars hd) _
        (List.mem_reverse.mp ((List.dropWhile_sublist _).subset hc))
    have hwritten {cs : List Char} (hcs : ∀ c ∈ cs, c.isDigit = true ∨ c = '.') :
        Template.IsNumeric (if cs = ['0'] then "0" else Number.signed negative cs).toList := by
      split
      · exact ⟨_, .inl rfl, .inr (.inr (by decide))⟩
      · exact Template.isNumeric_signed negative hcs
    refine hwritten fun c hc => ?_
    split at hc
    · exact hfixed c ((List.dropLast_sublist _).subset hc)
    · exact hfixed c hc
  · exact Template.isNumeric_text (fun _ _ _ hc => Template.numeric_positional _ hc) _

theorem trim_eq_self {s : String} (h : ∀ c ∈ s.toList, Text.isBlank c = false) : Text.trim s = s := by
  rw [Text.trim, Text.trimmed_eq_self h, String.ofList_toList]

/-- A written number has no white space around it. -/
theorem Template.IsNumeric.trim_eq {s : String} (h : Template.IsNumeric s.toList) : Text.trim s = s := by
  refine trim_eq_self fun c hc => ?_
  rcases h.mem hc with hdigit | hword
  · exact Text.isBlank_of_isDigit hdigit
  · exact (by decide : ∀ d ∈ "-.NaNinf".toList, Text.isBlank d = false) c hword

/-- Only a text with a number sign names an object. -/
theorem Accessor.lookup_eq_none (a : Accessor) {text : String} (h : '#' ∉ text.toList) : a.lookup text = none := by
  have hsubset : (Text.trim text).toList ⊆ text.toList := by
    intro c hc
    rw [Text.trim, Text.dropBlankEnd, String.toList_ofList, List.mem_reverse] at hc
    exact (List.dropWhile_sublist _).subset (List.mem_reverse.mp ((List.dropWhile_sublist _).subset hc))
  unfold lookup
  split
  · split
    · next heq => exact absurd (hsubset (by rw [heq]; exact List.mem_cons_self)) h
    · rfl
  · rfl

theorem Template.IsNumeric.numberSign_not_mem {cs : List Char} (h : Template.IsNumeric cs) : '#' ∉ cs := by
  intro hmem
  rcases h.mem hmem with hdigit | hword
  · cases hdigit
  · exact absurd hword (by decide)

/-! ## Scalars -/

/-- Whether a text names an object: it is looked up, and if the model finds nothing, it is compared with the
description of the object. -/
def Accessor.Names (a : Accessor) (text : String) (id : ObjectId) : Prop :=
  match a.lookup text with
  | some other => other = id
  | none => text = a.describe id

theorem Accessor.names_iff (a : Accessor) {text : String} (h : '#' ∉ text.toList) (id : ObjectId) :
    a.Names text id ↔ text = a.describe id := by
  rw [Names, a.lookup_eq_none h]

namespace Scalar

/-- Whether the order of two scalars does not matter for their equality. It does not for scalars of one kind and
with null. For others, what the conversion of the one tells has to agree with what the conversion of the other
tells: a text that reads as a number or as a truth value is written like it, a number that counts as true is one,
and one that does not is zero. An object converts to one and to true, so nothing else than these may be written
like its description. -/
def Balanced (a : Accessor) : Scalar → Scalar → Prop
  | .object id, .text t | .text t, .object id => a.Names t.value id ↔ t.value = a.describe id
  | .object id, .bool b | .bool b, .object id => boolText b = a.describe id ↔ b = true
  | .object id, .int n | .int n, .object id => toString n.toInt = a.describe id ↔ n = 1
  | .object id, .double x | .double x, .object id => doubleText x = a.describe id ↔ (1 == x) = true
  | .text t, .bool b | .bool b, .text t => (Scalar.text t).toBool = b → t.value = boolText b
  | .text t, .int n | .int n, .text t =>
    Number.readInt64 (Text.trim t.value).toList = some n → t.value = toString n.toInt
  | .text t, .double x | .double x, .text t =>
    ∀ y, Number.readFloat (Text.trim t.value).toList = some y → ((y == x) = true ↔ t.value = doubleText x)
  | .bool b, .int n | .int n, .bool b => decide (0 < n) = b → n = if b then 1 else 0
  | .bool b, .double x | .double x, .bool b => decide (0 < x) = b → ((if b then 1 else 0) == x) = true
  | .int n, .double x | .double x, .int n => Number.truncate x = n ↔ (Number.ofInt64 n == x) = true
  | _, _ => True

variable (a : Accessor)

/-! The answer for one order, by the kind of the second scalar. -/

theorem equal_eq_converted (x y : Scalar) (hx : x.kind ≠ .null) (hy : y.kind ≠ .null) (hne : x.kind ≠ y.kind) :
    x.equal a y = match x.convert? a y.kind with
      | some x' => if x'.kind = y.kind then x'.sameKindEqual y else decide (x.plain a = y.plain a)
      | none => decide (x.plain a = y.plain a) :=
  (if_neg hne).trans (if_neg (not_or.mpr ⟨hx, hy⟩))

theorem equal_text_iff (x : Scalar) (t : TracedText) : x.equal a (.text t) = true ↔ x.plain a = t.value := by
  cases x <;> exact decide_eq_true_iff

theorem equal_bool_iff (x : Scalar) (hnull : x.kind ≠ .null) (b : Bool) :
    x.equal a (.bool b) = true ↔ x.toBool = b := by
  by_cases hbool : x.kind = .bool
  · cases x with
    | bool c => exact decide_eq_true_iff
    | _ => cases hbool
  · rw [equal_eq_converted a x (.bool b) hnull nofun hbool]
    exact decide_eq_true_iff

theorem equal_object_iff (x : Scalar) (hnull : x.kind ≠ .null) (hobject : x.kind ≠ .object) (id : ObjectId) :
    x.equal a (.object id) = true ↔ a.Names (x.plain a) id := by
  have hread : x.convert? a .object = some (match a.lookup (x.plain a) with
      | some id => .object id
      | none => .null) := by
    cases x with
    | object other => exact absurd rfl hobject
    | null => exact absurd rfl hnull
    | _ => rfl
  rw [equal_eq_converted a x (.object id) hnull nofun hobject, Accessor.Names]
  dsimp only [kind]
  rw [hread]
  cases a.lookup (x.plain a) <;> exact decide_eq_true_iff

theorem readInt64_written (n : Int64) : Number.readInt64 (Text.trim (toString n.toInt)).toList = some n := by
  rw [(Template.isNumeric_int n.toInt).trim_eq, Template.Literal.readInt64_toString]

/-- A text equals the integer that it reads as. The text of an integer reads as that integer, so where there is
none to read, the texts differ. -/
theorem text_equal_int_iff (t : TracedText) (n : Int64) : (Scalar.text t).equal a (.int n) = true ↔
    Number.readInt64 (Text.trim t.value).toList = some n := by
  have hconvert : (Scalar.text t).convert? a .int =
      (Number.readInt64 (Text.trim t.value).toList).map .int := by
    dsimp only [convert?, toInt]
    cases Number.readInt64 (Text.trim t.value).toList <;> rfl
  have hwritten : t.value = toString n.toInt → Number.readInt64 (Text.trim t.value).toList = some n :=
    fun h => h ▸ readInt64_written n
  rw [equal_eq_converted a (.text t) (.int n) nofun nofun nofun]
  dsimp only [kind]
  rw [hconvert]
  cases hread : Number.readInt64 (Text.trim t.value).toList with
  | some m => exact decide_eq_true_iff.trans (Option.some_inj (a := m)).symm
  | none =>
    rw [hread] at hwritten
    exact decide_eq_true_iff.trans (iff_of_false (fun h => nomatch hwritten h) nofun)

theorem text_equal_double_iff (t : TracedText) (x : Float) : (Scalar.text t).equal a (.double x) = true ↔
    match Number.readFloat (Text.trim t.value).toList with
    | some y => (y == x) = true
    | none => t.value = doubleText x := by
  have hconvert : (Scalar.text t).convert? a .double =
      (Number.readFloat (Text.trim t.value).toList).map .double := by
    dsimp only [convert?, toDouble]
    cases Number.readFloat (Text.trim t.value).toList <;> rfl
  rw [equal_eq_converted a (.text t) (.double x) nofun nofun nofun]
  dsimp only [kind]
  rw [hconvert]
  cases Number.readFloat (Text.trim t.value).toList with
  | some y => exact Iff.rfl
  | none => exact decide_eq_true_iff

/-! Both orders, for scalars of one kind, for null, and for each pair of kinds. -/

theorem equal_comm_of_kind {x y : Scalar} (h : x.kind = y.kind) : x.equal a y = y.equal a x := by
  rw [equal, equal, if_pos h, if_pos h.symm]
  cases x <;> cases y <;> cases h
  case double x y => exact Number.beq_comm x y
  case null => rfl
  all_goals exact decide_eq_decide.mpr eq_comm

theorem equal_comm_of_null {x y : Scalar} (h : x.kind = .null ∨ y.kind = .null) : x.equal a y = y.equal a x := by
  by_cases hkind : x.kind = y.kind
  · exact equal_comm_of_kind a hkind
  · rw [equal, equal, if_neg hkind, if_neg (Ne.symm hkind), if_pos h, if_pos h.symm]
    exact decide_eq_decide.mpr eq_comm

theorem equal_comm_iff_of {x y : Scalar} {p q : Prop} (hx : x.equal a y = true ↔ p) (hy : y.equal a x = true ↔ q) :
    x.equal a y = y.equal a x ↔ (p ↔ q) := by
  rw [Bool.eq_iff_iff, hx, hy]

theorem equal_comm_object_text (id : ObjectId) (t : TracedText) :
    (Scalar.object id).equal a (.text t) = (Scalar.text t).equal a (.object id) ↔
      (a.Names t.value id ↔ t.value = a.describe id) :=
  (equal_comm_iff_of a ((equal_text_iff a _ t).trans eq_comm) (equal_object_iff a (.text t) nofun nofun id)).trans
    iff_comm

/-- A text without a number sign names an object only as its description. -/
theorem equal_comm_object {id : ObjectId} {x : Scalar} {p : Prop} (hnull : x.kind ≠ .null) (hobject : x.kind ≠ .object)
    (hplain : '#' ∉ (x.plain a).toList) (hx : (Scalar.object id).equal a x = true ↔ p) :
    (Scalar.object id).equal a x = x.equal a (.object id) ↔ (x.plain a = a.describe id ↔ p) := by
  have hnames := (equal_object_iff a x hnull hobject id).trans (a.names_iff hplain id)
  exact (equal_comm_iff_of a hx hnames).trans iff_comm

theorem equal_comm_object_bool (id : ObjectId) (b : Bool) :
    (Scalar.object id).equal a (.bool b) = (Scalar.bool b).equal a (.object id) ↔
      (boolText b = a.describe id ↔ b = true) := by
  have hplain : '#' ∉ (boolText b).toList := by cases b <;> decide
  exact equal_comm_object a nofun nofun hplain ((equal_bool_iff a (.object id) nofun b).trans eq_comm)

theorem equal_comm_object_int (id : ObjectId) (n : Int64) :
    (Scalar.object id).equal a (.int n) = (Scalar.int n).equal a (.object id) ↔
      (toString n.toInt = a.describe id ↔ n = 1) :=
  equal_comm_object a nofun nofun (Template.isNumeric_int n.toInt).numberSign_not_mem (decide_eq_true_iff.trans eq_comm)

theorem equal_comm_object_double (id : ObjectId) (x : Float) :
    (Scalar.object id).equal a (.double x) = (Scalar.double x).equal a (.object id) ↔
      (doubleText x = a.describe id ↔ (1 == x) = true) :=
  equal_comm_object a nofun nofun (isNumeric_valueText x).numberSign_not_mem Iff.rfl

theorem equal_comm_text_bool (t : TracedText) (b : Bool) :
    (Scalar.text t).equal a (.bool b) = (Scalar.bool b).equal a (.text t) ↔
      ((Scalar.text t).toBool = b → t.value = boolText b) := by
  have hwritten : t.value = boolText b → (Scalar.text t).toBool = b := by
    intro h
    rw [toBool, h]
    cases b <;> decide
  rw [equal_comm_iff_of a (equal_bool_iff a (.text t) nofun b) ((equal_text_iff a _ t).trans eq_comm)]
  exact ⟨Iff.mp, fun h => ⟨h, hwritten⟩⟩

theorem equal_comm_text_int (t : TracedText) (n : Int64) :
    (Scalar.text t).equal a (.int n) = (Scalar.int n).equal a (.text t) ↔
      (Number.readInt64 (Text.trim t.value).toList = some n → t.value = toString n.toInt) := by
  have hwritten : t.value = toString n.toInt → Number.readInt64 (Text.trim t.value).toList = some n :=
    fun h => h ▸ readInt64_written n
  rw [equal_comm_iff_of a (text_equal_int_iff a t n) ((equal_text_iff a _ t).trans eq_comm)]
  exact ⟨Iff.mp, fun h => ⟨h, hwritten⟩⟩

theorem equal_comm_text_double (t : TracedText) (x : Float) :
    (Scalar.text t).equal a (.double x) = (Scalar.double x).equal a (.text t) ↔
      ∀ y, Number.readFloat (Text.trim t.value).toList = some y → ((y == x) = true ↔ t.value = doubleText x) := by
  rw [equal_comm_iff_of a (text_equal_double_iff a t x) ((equal_text_iff a _ t).trans eq_comm)]
  cases Number.readFloat (Text.trim t.value).toList with
  | none => exact iff_of_true Iff.rfl nofun
  | some y => exact ⟨fun h z hz => Option.some_inj.mp hz ▸ h, fun h => h y rfl⟩

theorem equal_comm_bool_int (b : Bool) (n : Int64) :
    (Scalar.bool b).equal a (.int n) = (Scalar.int n).equal a (.bool b) ↔
      (decide (0 < n) = b → n = if b then 1 else 0) := by
  have hwritten : (n = if b then 1 else 0) → decide (0 < n) = b := by
    rintro rfl
    cases b <;> decide
  have hint : (Scalar.bool b).equal a (.int n) = true ↔ n = if b then 1 else 0 := decide_eq_true_iff.trans eq_comm
  rw [equal_comm_iff_of a hint (equal_bool_iff a (.int n) nofun b)]
  exact ⟨Iff.mpr, fun h => ⟨hwritten, h⟩⟩

theorem equal_comm_bool_double (b : Bool) (x : Float) :
    (Scalar.bool b).equal a (.double x) = (Scalar.double x).equal a (.bool b) ↔
      (decide (0 < x) = b → ((if b then 1 else 0) == x) = true) := by
  have hwritten : ((if b then 1 else 0) == x) = true → decide (0 < x) = b := by
    cases b with
    | false => exact fun h => decide_eq_false (Number.not_pos_of_zero_beq h)
    | true => exact fun h => decide_eq_true (Number.pos_of_one_beq h)
  have hdouble : (Scalar.bool b).equal a (.double x) = true ↔ ((if b then 1 else 0) == x) = true := Iff.rfl
  rw [equal_comm_iff_of a hdouble (equal_bool_iff a (.double x) nofun b)]
  exact ⟨Iff.mpr, fun h => ⟨hwritten, h⟩⟩

theorem equal_comm_int_double (n : Int64) (x : Float) :
    (Scalar.int n).equal a (.double x) = (Scalar.double x).equal a (.int n) ↔
      (Number.truncate x = n ↔ (Number.ofInt64 n == x) = true) := by
  have hint : (Scalar.double x).equal a (.int n) = true ↔ Number.truncate x = n := decide_eq_true_iff
  have hdouble : (Scalar.int n).equal a (.double x) = true ↔ (Number.ofInt64 n == x) = true := Iff.rfl
  exact (equal_comm_iff_of a hdouble hint).trans iff_comm

/-- The order of two scalars does not matter exactly where they are balanced. -/
theorem equal_comm_iff (x y : Scalar) : x.equal a y = y.equal a x ↔ x.Balanced a y := by
  have halike {x y : Scalar} (h : x.kind = y.kind ∨ x.kind = .null ∨ y.kind = .null) :
      x.equal a y = y.equal a x ↔ True :=
    iff_true_intro (h.elim (equal_comm_of_kind a) (equal_comm_of_null a))
  cases x with
  | null => cases y <;> exact halike (.inr (.inl rfl))
  | object id =>
    cases y with
    | object _ => exact halike (.inl rfl)
    | text t => exact equal_comm_object_text a id t
    | bool b => exact equal_comm_object_bool a id b
    | int n => exact equal_comm_object_int a id n
    | double x => exact equal_comm_object_double a id x
    | null => exact halike (.inr (.inr rfl))
  | text t =>
    cases y with
    | object id => exact eq_comm.trans (equal_comm_object_text a id t)
    | text _ => exact halike (.inl rfl)
    | bool b => exact equal_comm_text_bool a t b
    | int n => exact equal_comm_text_int a t n
    | double x => exact equal_comm_text_double a t x
    | null => exact halike (.inr (.inr rfl))
  | bool b =>
    cases y with
    | object id => exact eq_comm.trans (equal_comm_object_bool a id b)
    | text t => exact eq_comm.trans (equal_comm_text_bool a t b)
    | bool _ => exact halike (.inl rfl)
    | int n => exact equal_comm_bool_int a b n
    | double x => exact equal_comm_bool_double a b x
    | null => exact halike (.inr (.inr rfl))
  | int n =>
    cases y with
    | object id => exact eq_comm.trans (equal_comm_object_int a id n)
    | text t => exact eq_comm.trans (equal_comm_text_int a t n)
    | bool b => exact eq_comm.trans (equal_comm_bool_int a b n)
    | int _ => exact halike (.inl rfl)
    | double x => exact equal_comm_int_double a n x
    | null => exact halike (.inr (.inr rfl))
  | double x =>
    cases y with
    | object id => exact eq_comm.trans (equal_comm_object_double a id x)
    | text t => exact eq_comm.trans (equal_comm_text_double a t x)
    | bool b => exact eq_comm.trans (equal_comm_bool_double a b x)
    | int n => exact eq_comm.trans (equal_comm_int_double a n x)
    | double _ => exact halike (.inl rfl)
    | null => exact halike (.inr (.inr rfl))

end Scalar

/-! ## Lists -/

/-- Whether a list, converted to the kind of a scalar, equals it: its first item is or names the object, its text
is the text, the truth value says whether it has items, or the number how many. -/
def ItemList.ReadsAs (a : Accessor) (l : ItemList) : Scalar → Prop
  | .object id =>
    match (Value.list l).toObject a with
    | .object other => other = id
    | _ => (Value.list l).plain a = a.describe id
  | .text t => (Value.list l).plain a = t.value
  | .bool b => (!l.items.isEmpty) = b
  | .int n => Int64.ofInt l.items.length = n
  | .double x => (Float.ofNat l.items.length == x) = true
  | .null => (Value.list l).plain a = ""

variable (a : Accessor)

theorem itemsEqual_comm_of_balanced {xs ys : List Item}
    (h : List.Forall₂ (fun x y => x.value.Balanced a y.value) xs ys) : itemsEqual a xs ys = itemsEqual a ys xs := by
  induction h with
  | nil => rfl
  | cons hfirst _ ih => rw [itemsEqual, itemsEqual, (Scalar.equal_comm_iff a _ _).mpr hfirst, ih]

theorem balanced_of_itemsEqual {xs ys : List Item} (h : itemsEqual a xs ys = true) (h' : itemsEqual a ys xs = true) :
    List.Forall₂ (fun x y => x.value.Balanced a y.value) xs ys := by
  induction xs generalizing ys with
  | nil =>
    cases ys with
    | nil => exact .nil
    | cons y ys => cases h
  | cons x xs ih =>
    cases ys with
    | nil => cases h
    | cons y ys =>
      rw [itemsEqual, Bool.and_eq_true] at h h'
      exact .cons ((Scalar.equal_comm_iff a _ _).mp (h.1.trans h'.1.symm)) (ih h.2 h'.2)

/-- The order of two lists does not matter exactly if their items are balanced where one order finds the lists
equal. -/
theorem itemsEqual_comm_iff (xs ys : List Item) : itemsEqual a xs ys = itemsEqual a ys xs ↔
    (itemsEqual a xs ys = true ∨ itemsEqual a ys xs = true →
      List.Forall₂ (fun x y => x.value.Balanced a y.value) xs ys) := by
  constructor
  · rintro hsame (h | h)
    · exact balanced_of_itemsEqual a h (hsame ▸ h)
    · exact balanced_of_itemsEqual a (hsame ▸ h) h
  · intro hbalanced
    cases hxs : itemsEqual a xs ys with
    | true => rw [← itemsEqual_comm_of_balanced a (hbalanced (.inl hxs)), hxs]
    | false =>
      cases hys : itemsEqual a ys xs with
      | true => rw [← hxs, ← hys, itemsEqual_comm_of_balanced a (hbalanced (.inr hys))]
      | false => rfl

namespace Value

theorem list_equal_iff (l : ItemList) {y : Scalar} (hnull : y.kind ≠ .null) :
    (Value.list l).equal a (.scalar y) = true ↔ l.ReadsAs a y := by
  cases y with
  | null => exact absurd rfl hnull
  | object id =>
    change (if ((Value.list l).toObject a).kind = .object then ((Value.list l).toObject a).sameKindEqual (.object id)
      else decide ((Value.list l).plain a = a.describe id)) = true ↔ _
    rw [ItemList.ReadsAs]
    cases (Value.list l).toObject a <;> exact decide_eq_true_iff
  | double x => exact Iff.rfl
  | _ => exact decide_eq_true_iff

theorem equal_list_iff (l : ItemList) {x : Scalar} (hnull : x.kind ≠ .null) :
    (Value.scalar x).equal a (.list l) = true ↔ ∃ item, l.items = [item] ∧ x.equal a item.value = true := by
  rw [equal, if_neg hnull]
  rcases l.items with _ | ⟨item, _ | ⟨next, rest⟩⟩
  · exact iff_of_false nofun fun ⟨_, h, _⟩ => nomatch h
  · rw [itemsEqual, itemsEqual, Bool.and_true]
    exact ⟨fun h => ⟨item, rfl, h⟩, fun ⟨_, heq, h⟩ => (List.cons.inj heq).1 ▸ h⟩
  · have hlonger : itemsEqual a [{ value := x }] (item :: next :: rest) = false := Bool.and_false _
    rw [hlonger]
    exact iff_of_false nofun fun ⟨_, h, _⟩ => nomatch h

/-- Whether the order of two values does not matter for their equality. A list is compared with a scalar as a list
of one item in one order, and by what it converts to in the other. Two lists that no order finds equal differ in
both. -/
def Balanced (a : Accessor) : Value → Value → Prop
  | .scalar x, .scalar y => x.Balanced a y
  | .list l, .list m =>
    itemsEqual a l.items m.items = true ∨ itemsEqual a m.items l.items = true →
      List.Forall₂ (fun x y => x.value.Balanced a y.value) l.items m.items
  | .list l, .scalar y | .scalar y, .list l =>
    y.kind ≠ .null → (l.ReadsAs a y ↔ ∃ item, l.items = [item] ∧ y.equal a item.value = true)

theorem list_equal_comm_iff (l : ItemList) (y : Scalar) :
    (Value.list l).equal a (.scalar y) = (Value.scalar y).equal a (.list l) ↔
      (Value.list l).Balanced a (.scalar y) := by
  rw [Balanced]
  by_cases hnull : y.kind = .null
  · rw [equal, equal, if_pos hnull, if_pos hnull]
    exact iff_of_true (decide_eq_decide.mpr eq_comm) fun h => absurd hnull h
  · rw [Bool.eq_iff_iff, list_equal_iff a l hnull, equal_list_iff a l hnull]
    exact ⟨fun h _ => h, fun h => h hnull⟩

/-- The order of two values does not matter exactly where they are balanced. -/
theorem equal_comm_iff (x y : Value) : x.equal a y = y.equal a x ↔ x.Balanced a y := by
  cases x with
  | scalar x =>
    cases y with
    | scalar y => exact Scalar.equal_comm_iff a x y
    | list m => exact eq_comm.trans (list_equal_comm_iff a m x)
  | list l =>
    cases y with
    | scalar y => exact list_equal_comm_iff a l y
    | list m => exact itemsEqual_comm_iff a l.items m.items

theorem balanced_of_alike {x y : Value}
    (h : x.kind = y.kind ∧ x.kind ≠ .list ∨ x.kind = .null ∨ y.kind = .null) : x.Balanced a y := by
  cases x with
  | scalar x =>
    cases y with
    | scalar y =>
      refine (Scalar.equal_comm_iff a x y).mp ?_
      exact h.elim (fun h => Scalar.equal_comm_of_kind a h.1) (Scalar.equal_comm_of_null a)
    | list m =>
      intro hnull
      rcases h with ⟨h, hlist⟩ | h | h
      · exact absurd h hlist
      · exact absurd h hnull
      · cases h
  | list l =>
    cases y with
    | scalar y =>
      intro hnull
      rcases h with ⟨-, hlist⟩ | h | h
      · exact absurd rfl hlist
      · cases h
      · exact absurd h hnull
    | list m =>
      rcases h with ⟨-, hlist⟩ | h | h
      · exact absurd rfl hlist
      · cases h
      · cases h

end Value

/-! ## Operators and services -/

theorem Datum.ofBool_inj {b c : Bool} {current : Datum} : Datum.ofBool b current = Datum.ofBool c current ↔ b = c := by
  simp [Datum.ofBool, Datum.ofScalar]

theorem any_eq_any {items : List Item} {p q : Item → Bool} (h : ∀ item ∈ items, p item = q item) :
    items.any p = items.any q := by
  induction items with
  | nil => rfl
  | cons item rest ih =>
    have hrest := ih fun other hmem => h other (List.mem_cons_of_mem item hmem)
    rw [List.any_cons, List.any_cons, h item List.mem_cons_self, hrest]

theorem distinctBy_congr {same other : Scalar → Scalar → Bool} {kept items : List Item}
    (hkept : ∀ earlier ∈ kept, ∀ item ∈ items, same earlier.value item.value = other earlier.value item.value)
    (hitems : items.Pairwise fun earlier item => same earlier.value item.value = other earlier.value item.value) :
    distinctBy same kept items = distinctBy other kept items := by
  induction items generalizing kept with
  | nil => rfl
  | cons item rest ih =>
    obtain ⟨hitem, hrest⟩ := List.pairwise_cons.mp hitems
    have hany : (kept.any fun earlier => same earlier.value item.value) =
        kept.any fun earlier => other earlier.value item.value :=
      any_eq_any fun earlier hmem => hkept earlier hmem item List.mem_cons_self
    rw [distinctBy, distinctBy, List.foldl_cons, List.foldl_cons, hany, ← distinctBy, ← distinctBy]
    refine ih (fun earlier hmem next hnext => ?_) hrest
    split at hmem
    · exact hkept earlier hmem next (List.mem_cons_of_mem _ hnext)
    · rcases List.mem_append.mp hmem with hmem | hmem
      · exact hkept earlier hmem next (List.mem_cons_of_mem _ hnext)
      · rw [List.mem_singleton.mp hmem]
        exact hitem next hnext

open Service (builtins itemsOf valuesOf)

/-- Where the order of values matters when they are compared: by the operators, by the search for a value in a
list, and when a list is freed of equal items. -/
structure EqualitySymmetric (a : Accessor) (x y : Datum) : Prop where
  /-- The order of two values does not matter exactly where they are balanced. -/
  equal_iff : x.value.equal a y.value = y.value.equal a x.value ↔ x.value.Balanced a y.value
  /-- Values of one kind that are no lists are balanced, and null is with every value. -/
  alike : x.value.kind = y.value.kind ∧ x.value.kind ≠ .list ∨ x.value.kind = .null ∨ y.value.kind = .null →
    x.value.Balanced a y.value
  /-- The operands of both operators may change places exactly where they are balanced. -/
  operators_iff : ∀ current,
    (Evaluation.binary a .equal x y current = Evaluation.binary a .equal y x current ↔ x.value.Balanced a y.value) ∧
    (Evaluation.binary a .notEqual x y current = Evaluation.binary a .notEqual y x current ↔
      x.value.Balanced a y.value)
  /-- A value is found in a list alike from both sides if it is balanced with the items of the list. -/
  contains : (∀ item ∈ (itemsOf x).items, (Value.scalar item.value).Balanced a y.value) →
    ∃ service, builtins.find? "nContains" 1 = some service ∧ service.run a x [y] =
      .ok (.ofBool ((itemsOf x).items.any fun item => y.value.equal a (.scalar item.value)) x)
  /-- The same items are left of a list if later items are compared with earlier ones, where all are balanced. -/
  minimize : (itemsOf x).items.Pairwise (fun earlier item => earlier.value.Balanced a item.value) →
    ∃ service, builtins.find? "nMinimize" 0 = some service ∧ service.run a x [] = .ok (.ofList
      { items := distinctBy (fun earlier item => item.equal a earlier) [] (itemsOf x).items, unique := true } x)

end ModelText
