import ModelText.Proofs.Text.Cut

/-!
# Offsets of pieces

A text may be cut into pieces, such as its characters or what these were converted to. Here are the
offsets between pieces, and which pieces lie in a span that starts and ends at such offsets.
-/

namespace ModelText.Text

/-- The characters of a text, each as a piece of its own. -/
def letters (cs : List Char) : List (List Char) := cs.map ([·])

/-- The offset of the piece with the given index; the end counts as one more piece. -/
def offsetOf (pieces : List (List Char)) (index : Nat) : Nat :=
  byteCount (pieces.take index).flatten

/-- The bytes of the piece with the given index. -/
def pieceSpan (pieces : List (List Char)) (index : Nat) : Span :=
  ⟨offsetOf pieces index, offsetOf pieces (index + 1)⟩

/-- The index of the piece at an offset between pieces. -/
def indexOf : List (List Char) → Nat → Nat
  | [], _ => 0
  | piece :: rest, offset => if offset = 0 then 0 else indexOf rest (offset - byteCount piece) + 1

variable {pieces : List (List Char)} {i j k offset : Nat}

@[simp] theorem flatten_letters (cs : List Char) : (letters cs).flatten = cs := by
  induction cs with
  | nil => rfl
  | cons c rest ih => rw [letters, List.map_cons, ← letters, List.flatten_cons, ih]; rfl

@[simp] theorem length_letters (cs : List Char) : (letters cs).length = cs.length :=
  List.length_map ..

theorem ne_nil_of_mem_letters {cs piece : List Char} (h : piece ∈ letters cs) : piece ≠ [] := by
  obtain ⟨c, -, rfl⟩ := List.mem_map.mp h
  simp

@[simp] theorem offsetOf_zero (pieces : List (List Char)) : offsetOf pieces 0 = 0 := rfl

theorem offsetOf_cons_succ (piece : List Char) (rest : List (List Char)) (index : Nat) :
    offsetOf (piece :: rest) (index + 1) = byteCount piece + offsetOf rest index := by
  rw [offsetOf, List.take_succ_cons, List.flatten_cons, byteCount_append, offsetOf]

/-- Pieces keep their order. -/
theorem offsetOf_mono (pieces : List (List Char)) (h : i ≤ j) :
    offsetOf pieces i ≤ offsetOf pieces j := by
  induction pieces generalizing i j with
  | nil => simp [offsetOf]
  | cons piece rest ih =>
    cases i with
    | zero => simp
    | succ i =>
      obtain ⟨j, rfl⟩ : ∃ n, j = n + 1 := ⟨j - 1, by omega⟩
      rw [offsetOf_cons_succ, offsetOf_cons_succ]
      exact Nat.add_le_add_left (ih (by omega)) _

theorem lt_of_offsetOf_lt (h : offsetOf pieces i < offsetOf pieces j) : i < j :=
  Nat.lt_of_not_le fun hle => Nat.not_lt.mpr (offsetOf_mono pieces hle) h

theorem offsetOf_le (pieces : List (List Char)) (index : Nat) :
    offsetOf pieces index ≤ byteCount pieces.flatten := by
  have hsplit : byteCount pieces.flatten =
      offsetOf pieces index + byteCount (pieces.drop index).flatten := by
    rw [offsetOf, ← byteCount_append, ← List.flatten_append, List.take_append_drop]
  omega

theorem byteCount_pos {cs : List Char} (h : cs ≠ []) : 0 < byteCount cs :=
  Nat.pos_of_ne_zero fun hzero => h (byteCount_eq_zero hzero)

/-- No two pieces start at the same offset when none is empty. -/
theorem offsetOf_lt_offsetOf (hne : ∀ piece ∈ pieces, piece ≠ []) (hlt : i < j)
    (hj : j ≤ pieces.length) : offsetOf pieces i < offsetOf pieces j := by
  induction pieces generalizing i j with
  | nil => simp only [List.length_nil] at hj; omega
  | cons piece rest ih =>
    obtain ⟨j, rfl⟩ : ∃ n, j = n + 1 := ⟨j - 1, by omega⟩
    rw [List.length_cons] at hj
    rw [offsetOf_cons_succ]
    cases i with
    | zero =>
      rw [offsetOf_zero]
      exact Nat.add_pos_left (byteCount_pos (hne piece List.mem_cons_self)) _
    | succ i =>
      rw [offsetOf_cons_succ]
      exact Nat.add_lt_add_left
        (ih (fun p hp => hne p (List.mem_cons_of_mem _ hp)) (by omega) (by omega)) _

theorem indexOf_offsetOf (hne : ∀ piece ∈ pieces, piece ≠ []) (hi : i ≤ pieces.length) :
    indexOf pieces (offsetOf pieces i) = i := by
  induction pieces generalizing i with
  | nil =>
    rw [List.length_nil] at hi
    rw [indexOf]
    omega
  | cons piece rest ih =>
    cases i with
    | zero => rfl
    | succ i =>
      have hpos := byteCount_pos (hne piece List.mem_cons_self)
      rw [offsetOf_cons_succ, indexOf, if_neg (by omega), Nat.add_sub_cancel_left,
        ih (fun p hp => hne p (List.mem_cons_of_mem _ hp)) (by simpa using hi)]

/-- Every byte is one of a piece. -/
theorem exists_mem_pieceSpan (h : offset < byteCount pieces.flatten) :
    ∃ index < pieces.length, offset ∈ pieceSpan pieces index := by
  induction pieces generalizing offset with
  | nil => simp [byteCount] at h
  | cons piece rest ih =>
    by_cases hfirst : offset < byteCount piece
    · refine ⟨0, Nat.succ_pos _, Nat.zero_le _, ?_⟩
      dsimp only [pieceSpan]
      rw [offsetOf_cons_succ]
      omega
    · rw [List.flatten_cons, byteCount_append] at h
      have hrest : offset - byteCount piece < byteCount rest.flatten := by omega
      obtain ⟨index, hindex, hmem⟩ := ih hrest
      refine ⟨index + 1, Nat.succ_lt_succ hindex, ?_⟩
      rw [Span.mem_iff, pieceSpan] at hmem ⊢
      rw [offsetOf_cons_succ, offsetOf_cons_succ]
      dsimp only at hmem ⊢
      omega

/-- A span between pieces holds all bytes of a piece or none of them. -/
theorem mem_iff_of_mem_pieceSpan (h : offset ∈ pieceSpan pieces k) :
    offset ∈ (⟨offsetOf pieces i, offsetOf pieces j⟩ : Span) ↔ i ≤ k ∧ k < j := by
  obtain ⟨hlow, hhigh⟩ := h
  rw [Span.mem_iff]
  dsimp only [pieceSpan] at hlow hhigh ⊢
  constructor
  · rintro ⟨hstart, hstop⟩
    refine ⟨Nat.le_of_not_lt fun hlt => ?_, Nat.lt_of_not_le fun hle => ?_⟩
    · have := offsetOf_mono pieces (show k + 1 ≤ i from hlt)
      omega
    · have := offsetOf_mono pieces hle
      omega
  · rintro ⟨hi, hj⟩
    exact ⟨Nat.le_trans (offsetOf_mono pieces hi) hlow,
      Nat.lt_of_lt_of_le hhigh (offsetOf_mono pieces hj)⟩

theorem isBoundary_offsetOf (pieces : List (List Char)) (index : Nat) :
    IsBoundary pieces.flatten (offsetOf pieces index) :=
  ⟨(pieces.take index).flatten, (pieces.drop index).flatten,
    by rw [← List.flatten_append, List.take_append_drop], rfl⟩

/-- The offsets between characters are those of the letters. -/
theorem isBoundary_iff_offsetOf_letters {cs : List Char} :
    IsBoundary cs offset ↔ ∃ index ≤ cs.length, offsetOf (letters cs) index = offset := by
  constructor
  · rintro ⟨before, after, rfl, rfl⟩
    refine ⟨before.length, by simp, ?_⟩
    rw [offsetOf, letters, ← List.map_take, List.take_left, ← letters, flatten_letters]
  · rintro ⟨index, -, rfl⟩
    simpa using isBoundary_offsetOf (letters cs) index

end ModelText.Text
