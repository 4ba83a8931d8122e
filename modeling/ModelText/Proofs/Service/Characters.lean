import ModelText.Proofs.Text.Occurrences
import ModelText.Proofs.Text.Offsets
import ModelText.Proofs.Value.Parts

/-!
# Texts by their characters

The services on texts count characters from zero, while texts are cut at offsets of bytes. They agree on the
characters of every text: what is cut out between two of them is what stands there, with its traces, and a text is
found at the first character from which it can be cut out.
-/

namespace ModelText

open Text (byteCount letters offsetOf)

/-! ## Offsets of characters -/

namespace Text

variable {cs : List Char} {i j : Nat}

theorem offsetOf_letters (cs : List Char) (index : Nat) : offsetOf (letters cs) index = byteCount (cs.take index) := by
  rw [offsetOf, letters, ← List.map_take, ← letters, flatten_letters]

/-- Characters that lie further on have the greater offset. -/
theorem byteCount_take_lt (hlt : i < j) (hj : j ≤ cs.length) : byteCount (cs.take i) < byteCount (cs.take j) := by
  rw [← offsetOf_letters, ← offsetOf_letters]
  exact offsetOf_lt_offsetOf (fun _ => ne_nil_of_mem_letters) hlt (by rwa [length_letters])

/-- A text falls into what stands in front of a character, between two of them, and behind the second one. -/
theorem take_drop_middle (cs : List Char) (hle : i ≤ j) :
    cs = cs.take i ++ (cs.take j).drop i ++ cs.drop j := by
  have htake : cs.take i = (cs.take j).take i := by rw [List.take_take, Nat.min_eq_left hle]
  rw [htake, List.take_append_drop, List.take_append_drop]

theorem byteCount_take_middle (cs : List Char) (hle : i ≤ j) :
    byteCount (cs.take j) = byteCount (cs.take i) + byteCount ((cs.take j).drop i) := by
  have htake : cs.take i = (cs.take j).take i := by rw [List.take_take, Nat.min_eq_left hle]
  rw [htake, ← byteCount_append, List.take_append_drop]

end Text

/-! ## Cutting out characters -/

/-- The value of a text, with the provenance of `d`. -/
def Datum.asText (d : Datum) (t : TracedText) : Datum := d.with (.scalar (.text t))

/-- The value of an integer, with the provenance of `d`. -/
def Datum.asInt (d : Datum) (n : Int64) : Datum := d.with (.scalar (.int n))

namespace Service

/-- Whether a text has characters from `b` up to `e`. -/
def HasCharacters (s : String) (b e : Int64) : Prop := 0 ≤ b.toInt ∧ b.toInt ≤ e.toInt ∧ e.toInt ≤ s.length

/-- What is cut out of a text between two characters: these characters, with their traces. -/
structure CutOut (s part : TracedText) (b e : Int64) : Prop where
  value : part.value.toList = (s.value.toList.take e.toInt.toNat).drop b.toInt.toNat
  traces : s.Aligned → part.PartOf s (byteCount (s.value.toList.take b.toInt.toNat))

theorem offsetOf?_eq (s : String) (index : Int64) : offsetOf? s index =
    if 0 ≤ index.toInt ∧ index.toInt ≤ s.length then some (byteCount (s.toList.take index.toInt.toNat)) else none := by
  unfold offsetOf? Text.charOffset?
  by_cases hneg : 0 ≤ index.toInt
  · have hsame : index.toInt.toNat ≤ s.length ↔ 0 ≤ index.toInt ∧ index.toInt ≤ s.length := by omega
    rw [if_pos hneg]
    simp only [hsame]
  · rw [if_neg hneg, if_neg (fun h => hneg h.1)]

section Cutting

variable (d : Datum) (s : TracedText) {b e : Int64}

theorem cutOut_slice (h : HasCharacters s.value b e) :
    CutOut s (s.slice (Span.ordered (byteCount (s.value.toList.take b.toInt.toNat))
      (byteCount (s.value.toList.take e.toInt.toNat)))) b e := by
  obtain ⟨hpos, hle, -⟩ := h
  have hindex : b.toInt.toNat ≤ e.toInt.toNat := by omega
  have hmiddle := Text.take_drop_middle s.value.toList hindex
  rw [Text.byteCount_take_middle s.value.toList hindex, Span.ordered_of_le (Nat.le_add_right ..)]
  refine ⟨?_, fun hs => hs.partOf_slice hmiddle⟩
  rw [TracedText.value_slice_middle hmiddle, String.toList_ofList]

theorem textOf_asText : textOf (d.asText s) = s := rfl

/-- Characters that are there are cut out. -/
theorem substring_of_hasCharacters (h : HasCharacters s.value b e) :
    ∃ part, substring (d.asText s) b (some e) = .ok (d.asText part) ∧ CutOut s part b e := by
  have ⟨hpos, hle, hlength⟩ := h
  have hindex : b.toInt.toNat ≤ e.toInt.toNat := by omega
  have horder := Text.byteCount_take_middle s.value.toList hindex
  refine ⟨_, ?_, cutOut_slice s h⟩
  simp only [substring, textOf_asText, offsetOf?_eq]
  rw [if_pos (by omega)]
  dsimp only
  rw [if_pos (by omega)]
  dsimp only
  rw [if_neg (by omega)]
  rfl

/-- Characters that are not there are refused. -/
theorem substring_of_not_hasCharacters (h : ¬ HasCharacters s.value b e) :
    ∃ message, substring (d.asText s) b (some e) = .error (invalid "substring" message) := by
  simp only [substring, textOf_asText, offsetOf?_eq]
  by_cases hfirst : 0 ≤ b.toInt ∧ b.toInt ≤ s.value.length
  · rw [if_pos hfirst]
    dsimp only
    by_cases hlast : 0 ≤ e.toInt ∧ e.toInt ≤ s.value.length
    · have hbefore : e.toInt < b.toInt := Int.not_le.mp fun hle => h ⟨hfirst.1, hle, hlast.2⟩
      have hlength : b.toInt.toNat ≤ s.value.toList.length := by
        rw [String.length_toList]
        omega
      have horder := Text.byteCount_take_lt (show e.toInt.toNat < b.toInt.toNat by omega) hlength
      rw [if_pos hlast]
      dsimp only
      rw [if_pos horder]
      exact ⟨_, rfl⟩
    · rw [if_neg hlast]
      exact ⟨_, rfl⟩
  · rw [if_neg hfirst]
    exact ⟨_, rfl⟩

/-- Without a second index the characters up to the end are cut out. -/
theorem substring_to_end {n : Int64} (hn : n.toInt = s.value.length) (b : Int64) :
    substring (d.asText s) b none = substring (d.asText s) b (some n) := by
  have hend : byteCount (s.value.toList.take n.toInt.toNat) = s.value.utf8ByteSize := by
    rw [← Text.byteCount_toList, List.take_of_length_le (by rw [String.length_toList]; omega)]
  simp only [substring, textOf_asText, offsetOf?_eq]
  by_cases hfirst : 0 ≤ b.toInt ∧ b.toInt ≤ s.value.length
  · have hle := Text.byteCount_take_middle s.value.toList (show b.toInt.toNat ≤ n.toInt.toNat by omega)
    rw [if_pos hfirst, if_pos (by omega)]
    dsimp only
    rw [if_neg (by omega), hend]
  · rw [if_neg hfirst]

end Cutting

/-! ## Finding texts -/

/-- What the service of a name answers. -/
def answer? (a : Accessor) (name : String) (d : Datum) (args : List Datum) : Option (Except Failure Datum) :=
  (builtins.find? name args.length).map fun service => service.run a d args

variable (a : Accessor) (s t : TracedText) (x y : Datum)

/-- Whether the text `t` is what is cut out of `s` from the character `k` on. -/
def CutsOut (k : Int64) : Prop :=
  ∃ (e : Int64) (part : TracedText), e.toInt = k.toInt + t.value.length ∧
    answer? a "substring" (x.asText s) [y.asInt k, y.asInt e] = some (.ok (x.asText part)) ∧ part.value = t.value

/-- The services agree on the characters of a text `s`, in which a text `t` is searched for. The data `x` and `y` give
the provenance of `s` and of the arguments. -/
structure AgreeOnCharacters : Prop where
  length : ∀ u ∈ [s, t], ∃ n : Int64, n.toInt = u.value.length ∧
    answer? a "length" (x.asText u) [] = some (.ok (.ofInt n x))
  /-- Characters that are there are cut out, and each byte keeps its targets. -/
  substring : ∀ b e, HasCharacters s.value b e → ∃ part, CutOut s part b e ∧
    answer? a "substring" (x.asText s) [y.asInt b, y.asInt e] = some (.ok (x.asText part))
  /-- Characters that are not there are refused. -/
  refused : ∀ b e, ¬ HasCharacters s.value b e → ∃ message,
    answer? a "substring" (x.asText s) [y.asInt b, y.asInt e] = some (.error (invalid "substring" message))
  to_end : ∀ b n : Int64, n.toInt = s.value.length →
    answer? a "substring" (x.asText s) [y.asInt b] = answer? a "substring" (x.asText s) [y.asInt b, y.asInt n]
  /-- A text is found at the first character that it can be cut out from. -/
  indexOf : ∃ k, answer? a "indexOf" (x.asText s) [y.asText t] = some (.ok (.ofInt k x)) ∧
    answer? a "startsWith" (x.asText s) [y.asText t] = some (.ok (.ofBool (k = 0) x)) ∧
    (k = -1 ↔ ¬ t.value.toList <:+: s.value.toList) ∧
    (t.value.toList <:+: s.value.toList → CutsOut a s t x y k ∧ ∀ j, CutsOut a s t x y j → k.toInt ≤ j.toInt)

/-- A number of characters of a text, as the services tell it. -/
theorem toInt_ofInt_of_le {n : Nat} (hle : n ≤ s.value.length) (hs : s.size ≤ maxShift) :
    (Int64.ofInt n).toInt = n := by
  have hsize : s.value.length ≤ s.size := by
    rw [TracedText.size, ← Text.byteCount_toList, ← String.length_toList]
    exact Text.length_le_byteCount _
  rw [maxShift] at hs
  exact Int64.toInt_ofInt_of_le (by omega) (by omega)

variable {a s t x y} {before after : List Char} {k : Int64}

/-- Where a text is cut out, it occurs. -/
theorem CutsOut.exists_occurrence (h : CutsOut a s t x y k) :
    ∃ before after, s.value.toList = before ++ (t.value.toList ++ after) ∧ k.toInt = before.length := by
  obtain ⟨e, part, he, hanswer, hpart⟩ := h
  have hcut : substring (x.asText s) k (some e) = .ok (x.asText part) := Option.some.inj hanswer
  by_cases hthere : HasCharacters s.value k e
  · obtain ⟨own, hown, hvalue, -⟩ := substring_of_hasCharacters x s hthere
    rw [hown] at hcut
    cases hcut
    obtain ⟨hpos, hle, hlength⟩ := hthere
    have hmiddle := Text.take_drop_middle s.value.toList (show k.toInt.toNat ≤ e.toInt.toNat by omega)
    rw [← hvalue, hpart, List.append_assoc] at hmiddle
    refine ⟨_, _, hmiddle, ?_⟩
    rw [List.length_take, String.length_toList]
    omega
  · obtain ⟨message, hmessage⟩ := substring_of_not_hasCharacters x s hthere
    rw [hmessage] at hcut
    cases hcut

/-- Where a text occurs, it is cut out. -/
theorem cutsOut_of_occurrence (hs : s.size ≤ maxShift) (h : s.value.toList = before ++ (t.value.toList ++ after))
    (hk : k.toInt = before.length) : CutsOut a s t x y k := by
  have hcount := congrArg List.length h
  simp only [List.length_append, String.length_toList] at hcount
  have he := toInt_ofInt_of_le s (show before.length + t.value.length ≤ s.value.length by omega) hs
  generalize Int64.ofInt (before.length + t.value.length : Nat) = e at he
  have hthere : HasCharacters s.value k e := by
    unfold HasCharacters
    omega
  obtain ⟨part, hcut, hvalue, -⟩ := substring_of_hasCharacters x s hthere
  refine ⟨e, part, by omega, congrArg some hcut, String.toList_inj.mp ?_⟩
  have hfront : (before.length + t.value.length : Nat) = (before ++ t.value.toList).length := by
    rw [List.length_append, String.length_toList]
  rw [hvalue, he, hk, Int.toNat_natCast, Int.toNat_natCast, h, ← List.append_assoc, hfront, List.take_left,
    List.drop_left]

theorem indexOf_eq (hnone : Text.splitFirst t.value.toList s.value.toList = none) : indexOf s.value t.value = -1 := by
  rw [indexOf, hnone]

theorem toInt_indexOf (hs : s.size ≤ maxShift)
    (hsplit : Text.splitFirst t.value.toList s.value.toList = some (before, after)) :
    (indexOf s.value t.value).toInt = before.length := by
  have hcount := congrArg List.length (Text.eq_of_splitFirst hsplit)
  simp only [List.length_append, String.length_toList] at hcount
  rw [indexOf, hsplit]
  exact toInt_ofInt_of_le s (by omega) hs

theorem indexOf_eq_neg_one_iff (hs : s.size ≤ maxShift) :
    indexOf s.value t.value = -1 ↔ ¬ t.value.toList <:+: s.value.toList := by
  rw [← Text.splitFirst_eq_none_iff]
  cases hsplit : Text.splitFirst t.value.toList s.value.toList with
  | none => exact iff_of_true (indexOf_eq hsplit) rfl
  | some parts =>
    have hk := toInt_indexOf hs hsplit
    refine iff_of_false (fun hneg => ?_) nofun
    have hminus : (-1 : Int64).toInt = -1 := rfl
    rw [hneg, hminus] at hk
    omega

/-- A text begins with what is found at its first character. -/
theorem startsWith_eq (hs : s.size ≤ maxShift) :
    Text.startsWith s.value t.value = decide (indexOf s.value t.value = 0) := by
  rw [Text.startsWith, Bool.eq_iff_iff, List.isPrefixOf_iff_prefix, decide_eq_true_iff]
  cases hsplit : Text.splitFirst t.value.toList s.value.toList with
  | none =>
    have hnone := Text.splitFirst_eq_none_iff.mp hsplit
    rw [indexOf_eq hsplit]
    exact iff_of_false (fun h => hnone h.isInfix) (by decide)
  | some parts =>
    have hcs := Text.eq_of_splitFirst hsplit
    have hzero : (0 : Int64).toInt = 0 := rfl
    rw [← Int64.toInt_inj, toInt_indexOf hs hsplit, hzero]
    constructor
    · rintro ⟨ys, hys⟩
      have hle : parts.1.length ≤ ([] : List Char).length := Text.length_le_of_splitFirst hsplit hys.symm
      rw [List.length_nil] at hle
      omega
    · intro hfront
      rw [List.length_eq_zero_iff.mp (show parts.1.length = 0 by omega), List.nil_append] at hcs
      exact ⟨_, hcs.symm⟩

/-- A text is found where it is cut out for the first time. -/
theorem cutsOut_indexOf (hs : s.size ≤ maxShift) (h : t.value.toList <:+: s.value.toList) :
    CutsOut a s t x y (indexOf s.value t.value) ∧
      ∀ j, CutsOut a s t x y j → (indexOf s.value t.value).toInt ≤ j.toInt := by
  cases hsplit : Text.splitFirst t.value.toList s.value.toList with
  | none => exact absurd h (Text.splitFirst_eq_none_iff.mp hsplit)
  | some parts =>
    have hk := toInt_indexOf hs hsplit
    have hcs : s.value.toList = parts.1 ++ (t.value.toList ++ parts.2) :=
      (Text.eq_of_splitFirst hsplit).trans (List.append_assoc ..)
    refine ⟨cutsOut_of_occurrence hs hcs hk, fun j hj => ?_⟩
    obtain ⟨xs, ys, hoccurs, hj⟩ := hj.exists_occurrence
    have hle := Text.length_le_of_splitFirst hsplit hoccurs
    omega

/-- The services agree on the characters of every text. A text has no more than `maxShift` bytes. -/
theorem agreeOnCharacters (a : Accessor) (s t : TracedText) (x y : Datum) (hs : s.size ≤ maxShift)
    (ht : t.size ≤ maxShift) : AgreeOnCharacters a s t x y where
  length u hu := by
    have hsize : u.size ≤ maxShift := by
      rcases List.mem_cons.mp hu with rfl | hu
      · exact hs
      · exact List.mem_singleton.mp hu ▸ ht
    exact ⟨_, toInt_ofInt_of_le u (Nat.le_refl _) hsize, rfl⟩
  substring b e h := by
    obtain ⟨part, hcut, hpart⟩ := substring_of_hasCharacters x s h
    exact ⟨part, hpart, congrArg some hcut⟩
  refused b e h := by
    obtain ⟨message, hrefused⟩ := substring_of_not_hasCharacters x s h
    exact ⟨message, congrArg some hrefused⟩
  to_end b n hn := congrArg some (substring_to_end x s hn b)
  indexOf := by
    refine ⟨_, rfl, ?_, indexOf_eq_neg_one_iff hs, cutsOut_indexOf hs⟩
    exact congrArg (fun found => some (Except.ok (Datum.ofBool found x))) (startsWith_eq hs)

/-- Letters of two bytes each stand in front of the letters that are found. -/
theorem agreeOnCharacters_sharp_s :
    let a : Accessor := { model := {} }
    let s := TracedText.ofString "grüße" (some 0) none
    let t := TracedText.ofString "ße" none none
    s.size ≤ maxShift ∧ t.size ≤ maxShift ∧ AgreeOnCharacters a s t (Datum.root 0) (Datum.root 0) ∧
      indexOf s.value t.value = 3 := by
  intro a s t
  have hs : s.size ≤ maxShift := by decide +kernel
  have ht : t.size ≤ maxShift := by decide +kernel
  exact ⟨hs, ht, agreeOnCharacters a s t (Datum.root 0) (Datum.root 0) hs ht, by decide +kernel⟩

end Service

end ModelText
