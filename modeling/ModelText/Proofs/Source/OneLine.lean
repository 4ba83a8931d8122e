import ModelText.Proofs.Source.Walk

/-!
# Sources of one line

In a source without line feeds a tag stands alone on its line only when nothing visible stands in front
of it or behind it in the whole source.
-/

namespace ModelText

/-- Whether a character may stand beside a tag that stands alone on its line. -/
def isLineSpace (c : Char) : Bool := [' ', '\t', '\r'].contains c

namespace Source

open Text (byteCount)

variable {src : Source} {offset stop : Nat} {xs rest : List Char}

/-- A source without line feeds. -/
def OneLine (src : Source) : Prop := ∀ offset, src.byte? offset ≠ some lineFeed

/-- Something between two offsets is visible on its line. -/
def Visible (src : Source) (start stop : Nat) : Prop :=
  ∃ offset, start ≤ offset ∧ offset < stop ∧
    ∃ b, src.byte? offset = some b ∧ isLineBlank b = false

/-! ## Bytes of characters -/

theorem lt_size_of_byte? {b : UInt8} (h : src.byte? offset = some b) : offset < src.size := by
  refine Decidable.byContradiction fun hge => ?_
  have hnone : src.byte? offset = none := getElem?_neg src.bytes offset hge
  rw [h] at hnone
  cases hnone

/-- The first byte of a character tells whether it is a given character of one byte. -/
theorem From.byte?_eq_iff {c d : Char} (h : src.From offset (c :: rest)) {b : UInt8}
    (hd : tokenBytes (String.ofList [d]) = [b]) : src.byte? offset = some b ↔ c = d := by
  have hstarts := h.startsAt_iff (String.ofList [d])
  rw [startsAt, hd, String.toList_ofList, List.cons_prefix_cons] at hstarts
  simp only [holds, Bool.and_true, beq_iff_eq] at hstarts
  exact hstarts.trans ⟨fun hall => hall.1.symm, fun heq => ⟨heq.symm, List.nil_prefix⟩⟩

theorem From.exists_byte? {c : Char} (h : src.From offset (c :: rest)) :
    ∃ b, src.byte? offset = some b := by
  have hpos : 0 < (String.utf8EncodeChar c).length := by simpa using c.utf8Size_pos
  refine ⟨(String.utf8EncodeChar c)[0], ?_⟩
  have hbyte := h.byte? 0
  rwa [Nat.add_zero, encode_cons, List.getElem?_append_left hpos, List.getElem?_eq_getElem hpos]
    at hbyte

/-- The first byte of a visible character is visible. -/
theorem From.visible_head {c : Char} (h : src.From offset (c :: rest)) (hc : isLineSpace c = false) :
    src.Visible offset (offset + 1) := by
  obtain ⟨b, hb⟩ := h.exists_byte?
  refine ⟨offset, Nat.le_refl _, Nat.lt_succ_self _, b, hb, ?_⟩
  have hspaces : ∀ pair ∈ [(0x20, ' '), (0x09, '\t'), (0x0D, '\r')],
      tokenBytes (String.ofList [pair.2]) = [pair.1] ∧ isLineSpace pair.2 = true := by decide
  have hne : ∀ pair ∈ [(0x20, ' '), (0x09, '\t'), (0x0D, '\r')], b ≠ pair.1 := by
    rintro pair hpair rfl
    obtain ⟨hbytes, hspace⟩ := hspaces pair hpair
    rw [(h.byte?_eq_iff hbytes).mp hb, hspace] at hc
    cases hc
  simp only [isLineBlank, Bool.or_eq_false_iff, beq_eq_false_iff_ne]
  exact ⟨⟨hne (0x20, ' ') (by simp), hne (0x09, '\t') (by simp)⟩, hne (0x0D, '\r') (by simp)⟩

theorem Visible.mono {start start' stop' : Nat} (h : src.Visible start stop) (hstart : start' ≤ start)
    (hstop : stop ≤ stop') : src.Visible start' stop' := by
  obtain ⟨k, hle, hlt, hbyte⟩ := h
  exact ⟨k, Nat.le_trans hstart hle, Nat.lt_of_lt_of_le hlt hstop, hbyte⟩

/-- A text with a visible character is visible. -/
theorem From.visible (h : src.From offset (xs ++ rest)) (hxs : ∃ c ∈ xs, isLineSpace c = false) :
    src.Visible offset (offset + byteCount xs) := by
  obtain ⟨c, hc, hspace⟩ := hxs
  obtain ⟨before, after, rfl⟩ := List.append_of_mem hc
  rw [List.append_assoc] at h
  have hhead : src.Visible (offset + byteCount before) (offset + byteCount before + 1) :=
    h.drop.visible_head hspace
  have hpos := c.utf8Size_pos
  refine hhead.mono (Nat.le_add_right ..) ?_
  rw [Text.byteCount_append, byteCount]
  omega

/-- A text without line feeds is a source of one line. -/
theorem oneLine_ofString {text : String} (h : '\n' ∉ text.toList) : (ofString text).OneLine := by
  have hbytes : tokenBytes "\n" = [lineFeed] := by decide
  have hwalk (cs : List Char) (base : Nat) (hcs : '\n' ∉ cs) (hfrom : (ofString text).From base cs)
      (k : Nat) (hk : k < byteCount cs) : (ofString text).byte? (base + k) ≠ some lineFeed := by
    induction cs generalizing base k with
    | nil => exact absurd hk (Nat.not_lt_zero _)
    | cons c cs ih =>
      simp only [List.mem_cons, not_or] at hcs
      by_cases hlt : k < c.utf8Size
      · have hprefix : ¬ "\n".toList <+: c :: cs := fun hprefix =>
          hcs.1 (List.cons_prefix_cons.mp hprefix).1
        have hfalse : (ofString text).tokenAt (base + k) "\n" (base + k + 1) = false :=
          hfrom.tokenAt_eq_false hprefix hlt
        intro hbyte
        simp [tokenAt, hbytes, holds, hbyte] at hfalse
      · rw [byteCount] at hk
        have heq : base + k = base + c.utf8Size + (k - c.utf8Size) := by omega
        rw [heq]
        exact ih (base + c.utf8Size) hcs.2 hfrom.tail _ (by omega)
  intro offset hbyte
  by_cases hlt : offset < byteCount text.toList
  · have hwhole : (ofString text).From 0 text.toList := ⟨[], by simp, rfl⟩
    have hne := hwalk text.toList 0 h hwhole offset hlt
    rw [Nat.zero_add] at hne
    exact hne hbyte
  · rw [byte?_ofString, List.getElem?_eq_none (by rw [length_encode]; omega)] at hbyte
    cases hbyte

/-! ## Tags on the line -/

theorem lineStart_of_oneLine (h : src.OneLine) (offset : Nat) : src.lineStart offset = 0 := by
  have hzero (k : Nat) : src.afterLineFeed k = 0 := by
    induction k with
    | zero => rfl
    | succ k ih => rw [afterLineFeed, if_neg (by simpa using h k), ih]
  exact hzero _

/-- An offset behind something visible is not the first on its line. -/
theorem firstOnLine?_of_visible (h : src.OneLine) {start : Nat} (hvisible : src.Visible start offset) :
    src.firstOnLine? offset = none := by
  obtain ⟨k, -, hlt, b, hbyte, hb⟩ := hvisible
  rw [firstOnLine?, lineStart_of_oneLine h]
  refine if_neg fun hall => ?_
  have hmem : k ∈ List.range' 0 offset := List.mem_range'_1.mpr ⟨Nat.zero_le _, by omega⟩
  have hblank := List.all_eq_true.mp hall.2.2 k hmem
  rw [hbyte, Option.any_some, hb] at hblank
  cases hblank

/-- An offset in front of something visible is not the last on its line. -/
theorem lastOnLine?_of_visible (h : src.OneLine) (hvisible : src.Visible offset stop) :
    src.lastOnLine? offset = none := by
  obtain ⟨k, hle, -, b, hbyte, hb⟩ := hvisible
  have hlt := lt_size_of_byte? hbyte
  have hwalk (fuel start : Nat) (hstart : start ≤ k) (hfuel : k - start < fuel) :
      src.lineEndFrom fuel start = none := by
    induction fuel generalizing start with
    | zero => omega
    | succ fuel ih =>
      rw [lineEndFrom]
      rcases Nat.lt_or_eq_of_le hstart with hbefore | rfl
      · obtain ⟨own, hown⟩ : ∃ own, src.byte? start = some own :=
          ⟨_, getElem?_pos src.bytes start (Nat.lt_trans hbefore hlt)⟩
        rw [hown]
        dsimp only
        rw [if_neg (by simpa [hown] using h start)]
        split
        · exact ih _ hbefore (by omega)
        · rfl
      · rw [hbyte]
        dsimp only
        rw [if_neg (by simpa [hbyte] using h start), hb]
        rfl
  exact hwalk _ _ hle (by omega)

/-- The end of a line lies behind the offset that it was looked for from. -/
theorem le_of_lastOnLine? {next : Nat} (h : src.lastOnLine? offset = some next)
    (hle : offset ≤ src.size) : offset ≤ next := by
  have hwalk (fuel start : Nat) (hstart : start ≤ src.size)
      (hend : src.lineEndFrom fuel start = some next) : start ≤ next := by
    induction fuel generalizing start with
    | zero =>
      cases hend
      exact hstart
    | succ fuel ih =>
      rw [lineEndFrom] at hend
      cases hbyte : src.byte? start with
      | none =>
        rw [hbyte] at hend
        cases hend
        exact hstart
      | some b =>
        have hlt := lt_size_of_byte? hbyte
        rw [hbyte] at hend
        dsimp only at hend
        split at hend
        · cases hend
          exact Nat.le_succ _
        split at hend
        · exact Nat.le_of_succ_le (ih _ hlt hend)
        · cases hend
  exact hwalk _ _ hle h

end Source

end ModelText
