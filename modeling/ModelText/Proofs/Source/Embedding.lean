import ModelText.Proofs.Source.Encoding
import ModelText.Proofs.Source.Scan
import ModelText.Source.Lines

/-!
# Texts inside larger texts

A text that is a part of another one is embedded in it as a source. Slices and trimmed spans of the
part are those of the whole, moved up.
-/

namespace ModelText.Source

open Text (byteCount IsBoundary)

variable {small big : Source} {start : Nat}

/-- The characters of a text from an offset on, when they stand between two other parts of it. -/
theorem embeds_ofString {s : String} {before middle after : List Char}
    (h : s.toList = before ++ middle ++ after) :
    (ofString (String.ofList middle)).Embeds (ofString s) (byteCount before) := by
  have hsize : (ofString (String.ofList middle)).size = byteCount middle := by
    rw [size_ofString, String.toList_ofList]
  refine ⟨?_, fun offset hlt => ?_, ?_⟩
  · rw [hsize, size_ofString, h]
    simp
  · rw [hsize] at hlt
    rw [byte?_ofString, byte?_ofString, h, String.toList_ofList, encode_append, encode_append,
      List.append_assoc, List.getElem?_append_right (by simp),
      List.getElem?_append_left (by simpa using hlt), length_encode, Nat.add_sub_cancel_left]
  · rw [hsize]
    exact isBoundary_of ⟨before ++ middle, after, h, (Text.byteCount_append ..).symm⟩

namespace Embeds

variable (h : small.Embeds big start)

include h

theorem isBoundary_add {offset : Nat} (hle : offset ≤ small.size) :
    big.isBoundary (start + offset) = small.isBoundary offset := by
  rcases Nat.lt_or_eq_of_le hle with hlt | rfl
  · obtain ⟨b, hb⟩ : ∃ b, small.byte? offset = some b :=
      ⟨_, getElem?_pos small.bytes offset hlt⟩
    rw [Source.isBoundary, h.byte? offset hlt, Source.isBoundary, hb]
  · rw [h.isBoundary]
    have hself := (Embeds.refl small).isBoundary
    rw [Nat.zero_add] at hself
    exact hself.symm

theorem extract {a b : Nat} (hb : b ≤ small.size) :
    big.bytes.extract (start + a) (start + b) = small.bytes.extract a b := by
  have hle := h.size_le
  unfold Source.size at hle hb
  apply ByteArray.ext_getElem
  · simp only [ByteArray.size_extract]
    omega
  · intro i hi hi'
    simp only [ByteArray.size_extract] at hi hi'
    have hbyte := h.byte? (a + i) (by unfold Source.size; omega)
    rw [Source.byte?, Source.byte?, getElem?_pos _ _ (by omega), getElem?_pos _ _ (by omega)] at hbyte
    rw [ByteArray.getElem_extract, ByteArray.getElem_extract]
    have hbyte := Option.some.inj hbyte
    simpa [Nat.add_assoc] using hbyte

theorem slice? {s : Span} (hs : s.stop ≤ small.size) :
    big.slice? (s.up start) = small.slice? s := by
  have hle := h.size_le
  unfold Source.slice? Span.up
  by_cases hordered : s.start ≤ s.stop
  · dsimp only
    rw [h.isBoundary_add (by omega), h.isBoundary_add hs, h.extract hs]
    have hordered' : start + s.start ≤ start + s.stop := by omega
    have hstop : start + s.stop ≤ big.size := by omega
    simp only [hordered, hordered', hs, hstop, true_and]
  · have hordered' : ¬ start + s.start ≤ start + s.stop := by omega
    rw [if_neg fun hall => hordered' hall.1, if_neg fun hall => hordered hall.1]

theorem slice {s : Span} (hs : s.stop ≤ small.size) : big.slice (s.up start) = small.slice s := by
  rw [Source.slice, h.slice? hs, Source.slice]

theorem trimStart {count offset : Nat} (hle : offset + count ≤ small.size) :
    big.trimStart count (start + offset) = start + small.trimStart count offset := by
  induction count generalizing offset with
  | zero => rfl
  | succ count ih =>
    rw [Source.trimStart, Source.trimStart, h.byte? offset (by omega), Nat.add_assoc]
    split
    · exact ih (by omega)
    · rfl

theorem trimStop {count offset : Nat} (hcount : count ≤ offset) (hle : offset ≤ small.size) :
    big.trimStop count (start + offset) = start + small.trimStop count offset := by
  induction count generalizing offset with
  | zero => rfl
  | succ count ih =>
    rw [Source.trimStop, Source.trimStop, Nat.add_sub_assoc (by omega) start,
      h.byte? (offset - 1) (by omega)]
    split
    · exact ih (by omega) (by omega)
    · rfl

theorem trim {limits : Span} (hlimits : limits.stop ≤ small.size) :
    big.trim (limits.up start) = (small.trim limits).up start := by
  unfold Source.trim
  simp only [Span.up, h.min_stop hlimits]
  rw [Nat.add_sub_add_left]
  by_cases hordered : limits.start ≤ limits.stop
  · rw [h.trimStart (by omega), Nat.add_sub_add_left, h.trimStop (by omega) (by omega),
      Span.ordered_up]
    rfl
  · have hzero : min limits.stop small.size - limits.start = 0 := by omega
    simp only [hzero, Source.trimStart]
    rw [Nat.add_sub_add_left, hzero]
    simp only [Source.trimStop]
    rw [Span.ordered_up]
    rfl

theorem startsAt {offset : Nat} {token : String}
    (hle : offset + token.utf8ByteSize ≤ small.size) :
    big.startsAt (start + offset) token = small.startsAt offset token :=
  h.holds (by rwa [tokenBytes_length])

end Embeds

/-- A token that stands at an offset takes room there. -/
theorem lt_size_of_startsAt {src : Source} {offset : Nat} {token : String}
    (h : src.startsAt offset token = true) (hpos : 0 < token.utf8ByteSize) : offset < src.size := by
  rw [← tokenBytes_length] at hpos
  rw [startsAt] at h
  cases hbytes : tokenBytes token with
  | nil =>
    rw [hbytes] at hpos
    cases hpos
  | cons b rest =>
    rw [hbytes, holds, Bool.and_eq_true, beq_iff_eq] at h
    refine Nat.lt_of_not_le fun hle => ?_
    have hnone : src.byte? offset = none := getElem?_neg _ _ (Nat.not_lt.mpr hle)
    rw [hnone] at h
    cases h.1

/-- A slice has no more bytes than its span. -/
theorem utf8ByteSize_slice_le (src : Source) (s : Span) :
    (src.slice s).utf8ByteSize ≤ s.stop - s.start := by
  unfold slice slice?
  split
  · next hspan =>
    unfold String.fromUTF8?
    split
    · next hvalid =>
      change (src.bytes.extract s.start s.stop).size ≤ _
      rw [ByteArray.size_extract]
      omega
    · exact Nat.zero_le _
  · exact Nat.zero_le _

theorem trimStart_le (src : Source) (count offset : Nat) :
    offset ≤ src.trimStart count offset ∧ src.trimStart count offset ≤ offset + count := by
  induction count generalizing offset with
  | zero => exact ⟨Nat.le_refl _, Nat.le_refl _⟩
  | succ count ih =>
    unfold trimStart
    split
    · have := ih (offset + 1)
      omega
    · omega

theorem trimStop_le (src : Source) (count offset : Nat) :
    offset - count ≤ src.trimStop count offset ∧ src.trimStop count offset ≤ offset := by
  induction count generalizing offset with
  | zero => exact ⟨Nat.le_refl _, Nat.le_refl _⟩
  | succ count ih =>
    unfold trimStop
    split
    · have := ih (offset - 1)
      omega
    · omega

/-- A trimmed span lies in the span. -/
theorem trim_le (src : Source) {limits : Span} (h : limits.start ≤ limits.stop)
    (hsize : limits.stop ≤ src.size) :
    limits.start ≤ (src.trim limits).start ∧ (src.trim limits).start ≤ (src.trim limits).stop ∧
      (src.trim limits).stop ≤ limits.stop := by
  have hmin : min limits.stop src.size = limits.stop := Nat.min_eq_left hsize
  have hstart := src.trimStart_le (limits.stop - limits.start) limits.start
  have hstop := src.trimStop_le
    (limits.stop - src.trimStart (limits.stop - limits.start) limits.start) limits.stop
  simp only [trim, hmin]
  rw [Span.ordered_of_le (by omega)]
  dsimp only
  omega

end ModelText.Source
