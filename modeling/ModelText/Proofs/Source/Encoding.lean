import ModelText.Proofs.Text.Cut

/-!
# Sources as encoded characters

The bytes of a source are the encodings of its characters, one after the other. So an offset between
two characters is a boundary of the source, and a slice between two boundaries is the text of the
characters there.
-/

namespace ModelText.Source

open Text (byteCount IsBoundary IsCut)

/-- The bytes of characters. -/
def encode (cs : List Char) : List UInt8 := cs.flatMap String.utf8EncodeChar

@[simp] theorem encode_nil : encode [] = [] := rfl

@[simp] theorem encode_cons (c : Char) (cs : List Char) :
    encode (c :: cs) = String.utf8EncodeChar c ++ encode cs := rfl

@[simp] theorem encode_append (cs ds : List Char) : encode (cs ++ ds) = encode cs ++ encode ds :=
  List.flatMap_append

@[simp] theorem length_encode (cs : List Char) : (encode cs).length = byteCount cs := by
  induction cs with
  | nil => rfl
  | cons c rest ih => simp [byteCount, ih]

theorem bytes_ofString (s : String) : (ofString s).bytes = (encode s.toList).toByteArray :=
  String.utf8Encode_toList.symm

theorem size_ofString (s : String) : (ofString s).size = byteCount s.toList := by
  rw [Source.size, bytes_ofString, List.size_toByteArray, length_encode]

theorem byte?_ofString (s : String) (offset : Nat) :
    (ofString s).byte? offset = (encode s.toList)[offset]? := by
  unfold byte?
  rw [bytes_ofString]
  by_cases h : offset < (encode s.toList).length
  · rw [List.getElem?_eq_getElem h, getElem?_pos _ _ (by simpa using h), List.getElem_toByteArray]
  · rw [List.getElem?_eq_none (by omega), getElem?_neg _ _ (by simpa using h)]

/-- No byte that begins a character goes on with one. -/
theorem isContinuation_of_first {b : UInt8} (h : b.IsUTF8FirstByte) : isContinuation b = false := by
  obtain ⟨b⟩ := b
  revert b
  decide +kernel

theorem isBoundary_of {s : String} {offset : Nat} (h : IsBoundary s.toList offset) :
    (ofString s).isBoundary offset = true := by
  obtain ⟨before, after, hs, rfl⟩ := h
  unfold isBoundary
  rw [byte?_ofString, hs, encode_append, ← length_encode]
  cases after with
  | nil => simp [size_ofString, hs]
  | cons c rest =>
    have hpos := c.utf8Size_pos
    have hlt : 0 < (String.utf8EncodeChar c).length := by simpa using hpos
    have hbyte : (encode before ++ encode (c :: rest))[(encode before).length]? =
        some (String.utf8EncodeChar c)[0] := by
      rw [List.getElem?_append_right (Nat.le_refl _), Nat.sub_self, encode_cons,
        List.getElem?_append_left hlt, List.getElem?_eq_getElem hlt]
    have hfirst : (String.utf8EncodeChar c)[0].IsUTF8FirstByte :=
      UInt8.isUTF8FirstByte_getElem_utf8EncodeChar.mpr rfl
    rw [hbyte]
    simp [isContinuation_of_first hfirst]

/-- The bytes behind the first one of a character go on with it. -/
theorem isContinuation_of_pos (c : Char) {k : Nat} (hpos : 0 < k) {b : UInt8}
    (h : (String.utf8EncodeChar c)[k]? = some b) : isContinuation b = true := by
  have hlow (n : Nat) : isContinuation (UInt8.ofNat (n % 64 + 128)) = true := by
    have hall : ∀ m < 64, isContinuation (UInt8.ofNat (m + 128)) = true := by decide +kernel
    exact hall _ (Nat.mod_lt n (by decide))
  unfold String.utf8EncodeChar at h
  dsimp only at h
  obtain ⟨k, rfl⟩ : ∃ j, k = j + 1 := ⟨k - 1, by omega⟩
  split at h
  · cases h
  split at h
  · have hmem := List.mem_of_getElem? (List.getElem?_cons_succ ▸ h)
    simp only [List.mem_cons, List.not_mem_nil, or_false] at hmem
    rw [hmem]
    exact hlow _
  split at h
  · have hmem := List.mem_of_getElem? (List.getElem?_cons_succ ▸ h)
    simp only [List.mem_cons, List.not_mem_nil, or_false] at hmem
    rcases hmem with rfl | rfl <;> exact hlow _
  · have hmem := List.mem_of_getElem? (List.getElem?_cons_succ ▸ h)
    simp only [List.mem_cons, List.not_mem_nil, or_false] at hmem
    rcases hmem with rfl | rfl | rfl <;> exact hlow _

/-- A slice between two boundaries is the text of the characters there. -/
theorem slice?_middle {s : String} {before middle after : List Char}
    (h : s.toList = before ++ middle ++ after) :
    (ofString s).slice? ⟨byteCount before, byteCount before + byteCount middle⟩ =
      some (String.ofList middle) := by
  have hbefore : IsBoundary s.toList (byteCount before) :=
    ⟨before, middle ++ after, by rw [h, List.append_assoc], rfl⟩
  have hmiddle : IsBoundary s.toList (byteCount before + byteCount middle) :=
    ⟨before ++ middle, after, h, (Text.byteCount_append before middle).symm⟩
  have hbytes : (ofString s).bytes.extract (byteCount before) (byteCount before + byteCount middle) =
      middle.utf8Encode := by
    have hsize (cs : List Char) : cs.utf8Encode.size = byteCount cs := by
      rw [← length_encode, ← List.size_toByteArray]
      rfl
    have hs : (ofString s).bytes = before.utf8Encode ++ (middle.utf8Encode ++ after.utf8Encode) := by
      rw [bytes_ofString, h]
      change (before ++ middle ++ after).utf8Encode = _
      rw [List.utf8Encode_append, List.utf8Encode_append, ByteArray.append_assoc]
    have hskip := @ByteArray.extract_append_size_add before.utf8Encode
      (middle.utf8Encode ++ after.utf8Encode) 0 middle.utf8Encode.size
    rw [Nat.add_zero, hsize, hsize] at hskip
    rw [hs, hskip]
    exact ByteArray.extract_append_eq_left (hsize middle).symm
  have hle := hmiddle.le
  rw [← size_ofString] at hle
  rw [slice?, if_pos ⟨by simp, hle, isBoundary_of hbefore, isBoundary_of hmiddle⟩, hbytes,
    String.fromUTF8?, dif_pos ByteArray.isValidUTF8_utf8Encode]
  congr 1

theorem slice_middle {s : String} {before middle after : List Char}
    (h : s.toList = before ++ middle ++ after) :
    (ofString s).slice ⟨byteCount before, byteCount before + byteCount middle⟩ =
      String.ofList middle := by
  rw [slice, slice?_middle h, Option.getD_some]

end ModelText.Source
