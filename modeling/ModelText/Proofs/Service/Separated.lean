import ModelText.Proofs.Service.Characters
import ModelText.Proofs.Value.Nested

/-!
# Splitting and joining

A text that is split at the occurrences of a separator falls into parts without the separator, each with the traces
that it has in the text. With the separator between them they are the text again, and the texts of the items of every
list are joined in the same way.
-/

namespace ModelText

open Text (byteCount)

/-! ## Joining -/

namespace Service

variable (a : Accessor)

/-- What is collected in a list that is not unique: the items of every value. -/
theorem collect_any (values : List Datum) : collect a false values = { items := values.flatMap Datum.leaves } := by
  have hfold (kept : List Item) : values.foldl (fun l d => l.pushDatum a d) { items := kept } =
      ({ items := kept ++ values.flatMap Datum.leaves } : ItemList) := by
    induction values generalizing kept with
    | nil => rw [List.flatMap_nil, List.append_nil]; rfl
    | cons d rest ih =>
      rw [List.foldl_cons, ItemList.pushDatum_eq, foldl_push_any, ih, List.append_assoc, List.flatMap_cons]
  exact hfold []

/-- The text of a value is that of its items. -/
theorem plain_eq_join_leaves (d : Datum) :
    d.value.plain a = String.join (d.leaves.map fun item => item.value.plain a) := by
  unfold Datum.leaves
  cases d.value with
  | scalar s => exact (String.empty_append ..).symm
  | list l => rfl

theorem plain_collect (values : List Datum) (parent : Datum) :
    (Datum.ofList (collect a false values) parent).value.plain a =
      String.join (values.map fun d => d.value.plain a) := by
  rw [collect_any]
  change String.join ((values.flatMap Datum.leaves).map fun item => item.value.plain a) = _
  induction values with
  | nil => rfl
  | cons d rest ih =>
    rw [List.flatMap_cons, List.map_append, String.join_append, ih, List.map_cons, String.join_cons,
      plain_eq_join_leaves]

theorem join_separated (separator : Datum) (values : List Datum) :
    String.join ((separated separator values).map fun d => d.value.plain a) =
      (separator.value.plain a).intercalate (values.map fun d => d.value.plain a) := by
  induction values with
  | nil => rfl
  | cons d rest ih =>
    cases rest with
    | nil => exact String.empty_append ..
    | cons next rest =>
      have hcons : separated separator (d :: next :: rest) = d :: separator :: separated separator (next :: rest) := rfl
      rw [hcons, List.map_cons, List.map_cons, String.join_cons, String.join_cons, ih, List.map_cons, List.map_cons,
        List.map_cons, String.intercalate_cons_cons, String.append_assoc]

/-! ## Splitting -/

variable (s t : TracedText)

/-- Parts of a text, of which the first one starts at an offset and each other one behind the separator `t`. -/
def LaidOut : Nat → List TracedText → Prop
  | _, [] => True
  | start, part :: rest => part.PartOf s start ∧ LaidOut (start + part.size + t.size) rest

/-- The characters `cs`, which start at an offset of the text `s`, are split into parts. -/
structure Splits (start : Nat) (cs : List Char) (parts : List TracedText) : Prop where
  ne_nil : parts ≠ []
  /-- The separator does not occur in a part. -/
  apart : ∀ part ∈ parts, ¬ t.value.toList <:+: part.value.toList
  joined : t.value.toList.intercalate (parts.map (·.value.toList)) = cs
  traces : s.Aligned → LaidOut s t start parts

variable {s t} {before cs after : List Char}

/-- A part that is cut out of the text. -/
theorem cut_part (h : s.value.toList = before ++ cs ++ after) :
    let part := s.slice (Span.ordered (byteCount before) (byteCount before + byteCount cs))
    part.value.toList = cs ∧ part.size = byteCount cs ∧ (s.Aligned → part.PartOf s (byteCount before)) := by
  have hvalue := TracedText.value_slice_middle h
  rw [Span.ordered_of_le (Nat.le_add_right ..)]
  refine ⟨by rw [hvalue, String.toList_ofList], ?_, fun hs => hs.partOf_slice h⟩
  rw [TracedText.size, hvalue, Text.utf8ByteSize_ofList]

/-- Without the separator the rest of the text is the last part. -/
theorem splits_last (h : s.value.toList = before ++ cs) (hnone : ¬ t.value.toList <:+: cs) :
    Splits s t (byteCount before) cs
      [s.slice (Span.ordered (byteCount before) (byteCount before + byteCount cs))] := by
  obtain ⟨hvalue, -, htraces⟩ := cut_part (h.trans (List.append_nil _).symm)
  refine ⟨List.cons_ne_nil _ _, fun part hpart => ?_, ?_, fun hs => ⟨htraces hs, trivial⟩⟩
  · rwa [List.mem_singleton.mp hpart, hvalue]
  · rw [List.map_singleton, List.intercalate_singleton, hvalue]

/-- Splitting ends a part at the first separator and goes on behind it. The parts of the rest are `parts`. -/
theorem Splits.cons {rest : List Char} {parts : List TracedText} (hmark : t.value.toList ≠ [])
    (h : s.value.toList = before ++ cs) (hsplit : Text.splitFirst t.value.toList cs = some (after, rest))
    (hrest : Splits s t (byteCount before + byteCount after + byteCount t.value.toList) rest parts) :
    Splits s t (byteCount before) cs
      (s.slice (Span.ordered (byteCount before) (byteCount before + byteCount after)) :: parts) := by
  have hcs := Text.eq_of_splitFirst hsplit
  rw [hcs, ← List.append_assoc, ← List.append_assoc, List.append_assoc (before ++ after)] at h
  obtain ⟨hvalue, hsize, htraces⟩ := cut_part h
  refine ⟨List.cons_ne_nil _ _, fun part hpart => ?_, ?_, fun hs => ⟨htraces hs, ?_⟩⟩
  · rcases List.mem_cons.mp hpart with rfl | hpart
    · rw [hvalue]
      exact Text.not_infix_of_splitFirst hmark hsplit
    · exact hrest.apart part hpart
  · have hne : parts.map (·.value.toList) ≠ [] := fun hnil => hrest.ne_nil (List.map_eq_nil_iff.mp hnil)
    rw [List.map_cons, List.intercalate_cons_of_ne_nil hne, hrest.joined, hvalue, hcs]
  · rw [hsize, TracedText.size, ← Text.byteCount_toList t.value]
    exact hrest.traces hs

theorem splits_partsFrom (hmark : t.value.toList ≠ []) (fuel : Nat) (hfuel : cs.length ≤ fuel)
    (h : s.value.toList = before ++ cs) :
    Splits s t (byteCount before) cs ((partsFrom t.value.toList fuel (byteCount before) cs).map s.slice) := by
  induction fuel generalizing before cs with
  | zero =>
    rw [List.length_eq_zero_iff.mp (Nat.le_zero.mp hfuel)] at h ⊢
    exact splits_last h fun hwithin => hmark (List.infix_nil.mp hwithin)
  | succ fuel ih =>
    unfold partsFrom
    split
    · next hnone => exact splits_last h (Text.splitFirst_eq_none_iff.mp hnone)
    · next front rest hsplit =>
      have hcs := Text.eq_of_splitFirst hsplit
      have hlength : rest.length ≤ fuel := by
        have hcount := congrArg List.length hcs
        have hpos := List.length_pos_iff.mpr hmark
        simp only [List.length_append] at hcount
        omega
      have hrest := @ih (before ++ front ++ t.value.toList) rest hlength
        (by rw [h, hcs, List.append_assoc, List.append_assoc, List.append_assoc])
      rw [Text.byteCount_append, Text.byteCount_append] at hrest
      exact Splits.cons hmark h hsplit hrest

/-! ## Putting parts together again -/

/-- The value of a list of texts, with the provenance of `d`. -/
def ofTexts (d : Datum) (texts : List TracedText) : Datum :=
  .ofList { items := texts.map fun text => d.with (.text text) } d

theorem split_asText (d : Datum) (ht : t.value ≠ "") :
    ∃ parts, split (d.asText s) t.value = .ok (ofTexts d parts) ∧ Splits s t 0 s.value.toList parts := by
  have hmark : t.value.toList ≠ [] := fun hnil => ht (String.toList_eq_nil_iff.mp hnil)
  have hempty : t.value.isEmpty = false := by rwa [Bool.eq_false_iff, Ne, String.isEmpty_iff]
  refine ⟨_, ?_, @splits_partsFrom s t [] _ hmark s.value.length (Nat.le_of_eq String.length_toList) rfl⟩
  rw [split, hempty, if_neg Bool.false_ne_true, textOf_asText, ofTexts, List.map_map]
  rfl

/-- What the service that joins a list answers: its text has the separator between the texts of the items. -/
theorem exists_joined (a : Accessor) (t : TracedText) (y d : Datum) {l : ItemList} (hd : d.value = .list l) :
    ∃ joined, answer? a "sep" d [y.asText t] = some (.ok joined) ∧
      joined.value.plain a = t.value.intercalate (l.items.map fun item => item.value.plain a) := by
  have hvalues : valuesOf d = l.items.map Traced.toDatum := by rw [valuesOf, itemsOf, hd]; rfl
  refine ⟨_, rfl, (plain_collect ..).trans ?_⟩
  rw [join_separated, hvalues, List.map_map]
  rfl

/-- The text of a joined list has the separator between the texts of the items. A text that is split at a separator
and joined again is the same text; its parts do not contain the separator and keep their traces. -/
theorem split_joins (a : Accessor) (t : TracedText) (y : Datum) :
    (∀ (l : ItemList) (x : Datum), ∃ joined, answer? a "sep" (x.with (.list l)) [y.asText t] = some (.ok joined) ∧
      joined.value.plain a = t.value.intercalate (l.items.map fun item => item.value.plain a)) ∧
    (t.value ≠ "" → ∀ (s : TracedText) (x : Datum), ∃ parts joined,
      answer? a "split" (x.asText s) [y.asText t] = some (.ok (ofTexts x parts)) ∧
      (∀ part ∈ parts, ¬ t.value.toList <:+: part.value.toList) ∧
      (s.Aligned → LaidOut s t 0 parts) ∧
      answer? a "sep" (ofTexts x parts) [y.asText t] = some (.ok joined) ∧ joined.value.plain a = s.value) := by
  refine ⟨fun l x => exists_joined a t y _ rfl, fun ht s x => ?_⟩
  obtain ⟨parts, hsplit, hparts⟩ := @split_asText s t x ht
  obtain ⟨joined, hanswer, hplain⟩ := exists_joined a t y (ofTexts x parts) rfl
  refine ⟨parts, joined, congrArg some hsplit, hparts.apart, hparts.traces, hanswer, hplain.trans ?_⟩
  rw [← String.toList_inj, String.toList_intercalate, List.map_map, List.map_map]
  exact hparts.joined

/-- Separators stand side by side, overlap themselves and stand at the end. -/
theorem split_joins_overlapping :
    let a : Accessor := { model := {} }
    let s := TracedText.ofString "ßaaaaab" (some 0) none
    let t := TracedText.ofString "aa" none none
    t.value ≠ "" ∧ ∃ parts joined,
      answer? a "split" ((Datum.root 0).asText s) [(Datum.root 0).asText t] =
        some (.ok (ofTexts (Datum.root 0) parts)) ∧
      (∀ part ∈ parts, ¬ t.value.toList <:+: part.value.toList) ∧ LaidOut s t 0 parts ∧
      answer? a "sep" (ofTexts (Datum.root 0) parts) [(Datum.root 0).asText t] = some (.ok joined) ∧
      joined.value.plain a = s.value := by
  intro a s t
  have ht : t.value ≠ "" := by decide
  obtain ⟨parts, joined, hsplit, hapart, htraces, hjoin, hplain⟩ :=
    (split_joins a t (Datum.root 0)).2 ht s (Datum.root 0)
  exact ⟨ht, parts, joined, hsplit, hapart, htraces (TracedText.textClass_aligned.ofString _ _ _), hjoin, hplain⟩

end Service

end ModelText
