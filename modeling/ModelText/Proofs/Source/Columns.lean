import ModelText.Proofs.Source.Lines

/-!
# Lines and columns

Lines are counted in line feeds and columns in characters from where the line begins. All helpers agree on where that
is, so a later offset between two characters is on a later line, or further right on the same one.
-/

namespace ModelText.Source

variable {src : Source} {offset a b k : Nat}

/-! ## Where lines begin -/

/-- A line begins at the start of a source and behind each line feed. -/
def BeginsLine (src : Source) : Nat → Prop
  | 0 => True
  | k + 1 => src.byte? k = some lineFeed

theorem beginsLine_afterLineFeed (offset : Nat) : src.BeginsLine (src.afterLineFeed offset) := by
  induction offset with
  | zero => trivial
  | succ offset ih =>
    rw [afterLineFeed]
    split
    · next hfeed => exact beq_iff_eq.mp hfeed
    · exact ih

theorem BeginsLine.le_afterLineFeed (h : src.BeginsLine b) (hle : b ≤ offset) : b ≤ src.afterLineFeed offset := by
  induction offset with
  | zero => exact hle
  | succ offset ih =>
    rw [afterLineFeed]
    split
    · exact hle
    · next hnone =>
      refine ih (Nat.le_of_lt_succ (Nat.lt_of_le_of_ne hle ?_))
      rintro rfl
      exact hnone (beq_iff_eq.mpr h)

theorem BeginsLine.le_size (h : src.BeginsLine b) : b ≤ src.size := by
  cases b with
  | zero => exact Nat.zero_le _
  | succ k => exact lt_size_of_byte? h

theorem lineStart_le (offset : Nat) : src.lineStart offset ≤ offset :=
  Nat.le_trans (afterLineFeed_le _) (Nat.min_le_left ..)

/-- The line of an offset begins at the last line begin that is not behind it. -/
theorem le_lineStart_of_beginsLine (h : src.BeginsLine b) (hle : b ≤ offset) : b ≤ src.lineStart offset :=
  h.le_afterLineFeed (Nat.le_min.mpr ⟨hle, h.le_size⟩)

/-- Between the start of its line and an offset that is first there stand only spaces, tabs and carriage returns. -/
theorem firstOnLine?_eq_some_iff :
    src.firstOnLine? offset = some b ↔ b = src.lineStart offset ∧
      ∀ k, b ≤ k → k < offset → ∃ byte, src.byte? k = some byte ∧ byte ∈ [0x20, 0x09, 0x0D] := by
  have hblank (k : Nat) : (src.byte? k).any isLineBlank = true ↔
      ∃ byte, src.byte? k = some byte ∧ byte ∈ [0x20, 0x09, 0x0D] := by
    simp [Option.any_eq_true, isLineBlank, or_assoc]
  have hsize : (∀ k, src.lineStart offset ≤ k → k < offset → (src.byte? k).any isLineBlank = true) →
      offset ≤ src.size := by
    intro h
    refine Nat.le_of_not_lt fun hlt => ?_
    have hstart : src.lineStart offset ≤ src.size := (beginsLine_afterLineFeed _).le_size
    obtain ⟨byte, hbyte, -⟩ := (hblank _).mp (h src.size hstart hlt)
    exact absurd (lt_size_of_byte? hbyte) (Nat.lt_irrefl _)
  rw [firstOnLine?, Option.ite_none_right_eq_some]
  simp only [allBytes, Span.length, List.all_eq_true, List.mem_range'_1, Option.some.injEq]
  constructor
  · rintro ⟨⟨hle, -, hall⟩, rfl⟩
    exact ⟨rfl, fun k hk hlt => (hblank k).mp (hall k ⟨hk, by omega⟩)⟩
  · rintro ⟨rfl, hall⟩
    have hbytes (k : Nat) (hk : src.lineStart offset ≤ k) (hlt : k < offset) := (hblank k).mpr (hall k hk hlt)
    exact ⟨⟨lineStart_le offset, hsize hbytes, fun k hk => hbytes k hk.1 (by omega)⟩, rfl⟩

/-! ## Two offsets -/

theorem lineFeedsBelow_lt (hle : a ≤ k) (hlt : k < b) (hfeed : src.byte? k = some lineFeed) :
    src.lineFeedsBelow a < src.lineFeedsBelow b := by
  have hbefore : src.lineFeedsBelow a ≤ src.lineFeedsBelow k := lineFeedsBelow_mono hle
  have hafter : src.lineFeedsBelow (k + 1) ≤ src.lineFeedsBelow b := lineFeedsBelow_mono hlt
  rw [lineFeedsBelow, hfeed, beq_self_eq_true, if_pos rfl] at hafter
  omega

/-- Without a line feed between them, two offsets are on the same line. -/
theorem same_line (hle : a ≤ b) (hnone : ∀ k, a ≤ k → k < b → src.byte? k ≠ some lineFeed) :
    src.lineFeedsBelow a = src.lineFeedsBelow b ∧ src.afterLineFeed a = src.afterLineFeed b := by
  induction b with
  | zero => simp [Nat.le_zero.mp hle]
  | succ b ih =>
    by_cases hlast : a = b + 1
    · simp [hlast]
    · have hfeed : ¬ (src.byte? b == some lineFeed) = true := by simpa using hnone b (by omega) (by omega)
      have hbefore := ih (by omega) fun k hk hlt => hnone k hk (by omega)
      rw [lineFeedsBelow, afterLineFeed, if_neg hfeed, if_neg hfeed]
      exact hbefore

theorem slice_length_pos (h : src.Cuts ⟨a, b⟩) (hlt : a < b) : 0 < (src.slice ⟨a, b⟩).length := by
  obtain ⟨xs, rest, hfrom, hstop⟩ := h.exists_from
  dsimp only at hfrom hstop
  subst hstop
  rw [hfrom.slice, String.length_ofList]
  refine List.length_pos_iff.mpr ?_
  rintro rfl
  exact absurd hlt (Nat.lt_irrefl _)

/-- A later offset is on a later line or, further right, on the same one. -/
theorem lineColumn_lt (htext : src.IsText) (ha : src.Between a) (hb : src.Between b) (hlt : a < b) :
    Prod.Lex (· < ·) (· < ·) (src.lineColumn a) (src.lineColumn b) := by
  have hcolumn {o : Nat} (ho : src.Between o) :
      src.lineColumn o = (src.lineFeedsBelow o + 1, (src.slice ⟨src.afterLineFeed o, o⟩).length + 1) := by
    have hmin : min o src.size = o := Nat.min_eq_left ho.le_size
    simp only [lineColumn, lineNumber, lineStart, hmin]
  rw [hcolumn ha, hcolumn hb]
  by_cases hfeed : ∃ k, a ≤ k ∧ k < b ∧ src.byte? k = some lineFeed
  · obtain ⟨k, hle, hk, hbyte⟩ := hfeed
    exact .left _ _ (Nat.succ_lt_succ (lineFeedsBelow_lt hle hk hbyte))
  · have hnone (k : Nat) (hle : a ≤ k) (hk : k < b) : src.byte? k ≠ some lineFeed :=
      fun hbyte => hfeed ⟨k, hle, hk, hbyte⟩
    obtain ⟨hline, hstart⟩ := same_line (Nat.le_of_lt hlt) hnone
    have hfront : src.Cuts ⟨src.afterLineFeed a, a⟩ := ⟨afterLineFeed_le a, between_afterLineFeed htext a, ha⟩
    have hbehind : src.Cuts ⟨a, b⟩ := ⟨Nat.le_of_lt hlt, ha, hb⟩
    have hpos := slice_length_pos hbehind hlt
    rw [hline, ← hstart, slice_append hfront hbehind, String.length_append]
    exact .right _ (by omega)

/-- Line and column tell an offset between two characters. -/
theorem eq_of_lineColumn_eq (htext : src.IsText) (ha : src.Between a) (hb : src.Between b)
    (h : src.lineColumn a = src.lineColumn b) : a = b := by
  have hirrefl (p : Nat × Nat) : ¬ Prod.Lex (· < ·) (· < ·) p p := by
    intro hp
    rw [Prod.lex_def] at hp
    omega
  rcases Nat.lt_trichotomy a b with hlt | heq | hlt
  · exact absurd (h ▸ lineColumn_lt htext ha hb hlt) (hirrefl _)
  · exact heq
  · exact absurd (h ▸ lineColumn_lt htext hb ha hlt) (hirrefl _)

end ModelText.Source
