import ModelText.Service.Builtin

/-!
# Cuts between characters

An offset lies between two characters of a text when some of its characters, taken from the front,
have that many bytes. The services cut texts at such offsets only.
-/

namespace ModelText

namespace Text

@[simp] theorem byteCount_append (cs ds : List Char) :
    byteCount (cs ++ ds) = byteCount cs + byteCount ds := by
  induction cs with
  | nil => simp [byteCount]
  | cons c rest ih => simp [byteCount, ih, Nat.add_assoc]

theorem utf8ByteSize_ofList (cs : List Char) : (String.ofList cs).utf8ByteSize = byteCount cs := by
  induction cs with
  | nil => rfl
  | cons c rest ih => rw [String.ofList_cons, String.utf8ByteSize_append, ih]; simp [byteCount]

theorem byteCount_toList (s : String) : byteCount s.toList = s.utf8ByteSize := by
  rw [← utf8ByteSize_ofList, String.ofList_toList]

/-- Every character takes a byte at least. -/
theorem length_le_byteCount (cs : List Char) : cs.length ≤ byteCount cs := by
  induction cs with
  | nil => exact Nat.le_refl 0
  | cons c rest ih =>
    have := c.utf8Size_pos
    simp only [List.length_cons, byteCount]
    omega

theorem byteCount_eq_zero {cs : List Char} (h : byteCount cs = 0) : cs = [] := by
  cases cs with
  | nil => rfl
  | cons c rest =>
    have := c.utf8Size_pos
    simp only [byteCount] at h
    omega

/-- Whether an offset lies between two characters, or at an end. -/
def IsBoundary (cs : List Char) (offset : Nat) : Prop :=
  ∃ before after, cs = before ++ after ∧ offset = byteCount before

namespace IsBoundary

variable {cs : List Char}

theorem zero : IsBoundary cs 0 := ⟨[], cs, rfl, rfl⟩

theorem size : IsBoundary cs (byteCount cs) := ⟨cs, [], by simp, rfl⟩

theorem of_take (count : Nat) : IsBoundary cs (byteCount (cs.take count)) :=
  ⟨_, _, (List.take_append_drop count cs).symm, rfl⟩

theorem max {m n : Nat} (hm : IsBoundary cs m) (hn : IsBoundary cs n) :
    IsBoundary cs (Max.max m n) := by
  rcases Nat.le_total m n with h | h
  · rwa [Nat.max_eq_right h]
  · rwa [Nat.max_eq_left h]

theorem min {m n : Nat} (hm : IsBoundary cs m) (hn : IsBoundary cs n) :
    IsBoundary cs (Min.min m n) := by
  rcases Nat.le_total m n with h | h
  · rwa [Nat.min_eq_left h]
  · rwa [Nat.min_eq_right h]

theorem le {offset : Nat} (h : IsBoundary cs offset) : offset ≤ byteCount cs := by
  obtain ⟨before, after, rfl, rfl⟩ := h
  simp

end IsBoundary

/-- A span of whole characters of a text. -/
structure IsCut (cs : List Char) (span : Span) : Prop where
  start_le_stop : span.start ≤ span.stop
  start : IsBoundary cs span.start
  stop : IsBoundary cs span.stop

theorem IsBoundary.isCut_of_le {cs : List Char} {m n : Nat} (hm : IsBoundary cs m)
    (hn : IsBoundary cs n) (hle : m ≤ n) : IsCut cs ⟨m, n⟩ := ⟨hle, hm, hn⟩

/-- The span around two cuts is a cut. -/
theorem IsCut.union {cs : List Char} {s t : Span} (hs : IsCut cs s) (ht : IsCut cs t) :
    IsCut cs (s.union t) := by
  refine ⟨?_, hs.start.min ht.start, hs.stop.max ht.stop⟩
  exact Nat.le_trans (Nat.min_le_left ..) (Nat.le_trans hs.start_le_stop (Nat.le_max_left ..))

theorem IsBoundary.isCut {cs : List Char} {m n : Nat} (hm : IsBoundary cs m)
    (hn : IsBoundary cs n) : IsCut cs (Span.ordered m n) := by
  unfold Span.ordered
  split
  · exact ⟨by assumption, hm, hn⟩
  · exact ⟨by simp only; omega, hn, hm⟩

/-- A cut takes out a middle part of the characters. -/
theorem IsCut.exists_middle {cs : List Char} {span : Span} (h : IsCut cs span) :
    ∃ before middle after, cs = before ++ middle ++ after ∧
      span = ⟨byteCount before, byteCount before + byteCount middle⟩ := by
  obtain ⟨hle, ⟨before, rest, hcs, hstart⟩, ⟨front, after, hcs', hstop⟩⟩ := h
  rw [hcs, List.append_eq_append_iff] at hcs'
  rcases hcs' with ⟨middle, rfl, rfl⟩ | ⟨extra, rfl, rfl⟩
  · refine ⟨before, middle, after, by rw [hcs, List.append_assoc], ?_⟩
    rw [← byteCount_append, ← hstart, ← hstop]
  · have hextra : extra = [] := byteCount_eq_zero (by
      rw [byteCount_append] at hstart
      omega)
    subst hextra
    refine ⟨front, [], rest, by simpa using hcs, ?_⟩
    cases span
    simp_all [byteCount]

/-! ## The cuts of services -/

theorem isBoundary_trimLeft (s : String) :
    IsBoundary s.toList (s.utf8ByteSize - (trimLeft s).utf8ByteSize) := by
  refine ⟨s.toList.takeWhile isBlank, s.toList.dropWhile isBlank,
    (List.takeWhile_append_dropWhile ..).symm, ?_⟩
  have hsum := byteCount_append (s.toList.takeWhile isBlank) (s.toList.dropWhile isBlank)
  rw [List.takeWhile_append_dropWhile, byteCount_toList] at hsum
  rw [trimLeft, utf8ByteSize_ofList]
  omega

theorem isBoundary_trimRight (s : String) : IsBoundary s.toList (trimRight s).utf8ByteSize := by
  refine ⟨dropBlankEnd s.toList, (s.toList.reverse.takeWhile isBlank).reverse, ?_, ?_⟩
  · rw [dropBlankEnd, ← List.reverse_append, List.takeWhile_append_dropWhile, List.reverse_reverse]
  · rw [trimRight, utf8ByteSize_ofList]

theorem isCut_trimSpan (s : String) : IsCut s.toList (trimSpan s) :=
  (isBoundary_trimLeft s).isCut ((isBoundary_trimRight s).max (isBoundary_trimLeft s))

theorem isBoundary_of_charOffset? {s : String} {index offset : Nat}
    (h : charOffset? s index = some offset) : IsBoundary s.toList offset := by
  unfold charOffset? at h
  split at h
  · cases h
    exact .of_take index
  · cases h

end Text

namespace Service

open Text

theorem isBoundary_of_offsetOf? {s : String} {index : Int64} {offset : Nat}
    (h : offsetOf? s index = some offset) : IsBoundary s.toList offset := by
  unfold offsetOf? at h
  split at h
  · exact isBoundary_of_charOffset? h
  · cases h

/-- The parts between separators are cuts of the whole text, of which `cs` is the end. -/
theorem isCut_of_mem_partsFrom {separator : List Char} {fuel : Nat} {before cs : List Char}
    {span : Span} (h : span ∈ partsFrom separator fuel (byteCount before) cs) :
    IsCut (before ++ cs) span := by
  induction fuel generalizing before cs with
  | zero =>
    obtain rfl := List.mem_singleton.mp h
    exact IsBoundary.isCut ⟨before, cs, rfl, rfl⟩ (byteCount_append before cs ▸ .size)
  | succ fuel ih =>
    unfold partsFrom at h
    split at h
    · obtain rfl := List.mem_singleton.mp h
      exact IsBoundary.isCut ⟨before, cs, rfl, rfl⟩ (byteCount_append before cs ▸ .size)
    · next part after hsplit =>
      have hcs := eq_of_splitFirst hsplit
      rcases List.mem_cons.mp h with rfl | h
      · refine IsBoundary.isCut ⟨before, cs, rfl, rfl⟩ ⟨before ++ part, separator ++ after, ?_, ?_⟩
        · rw [hcs, List.append_assoc, List.append_assoc]
        · rw [byteCount_append]
      · rw [hcs, ← List.append_assoc, ← List.append_assoc]
        refine ih ?_
        rwa [byteCount_append, byteCount_append]

end Service

end ModelText
