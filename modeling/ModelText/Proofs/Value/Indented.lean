import ModelText.Proofs.Value.Aligned

/-!
# Indented lines

A margin is put behind every line feed of a text but one at its end, and in front of the text unless its
first line is skipped. Seen line by line, every line gets the margin except for an empty one at the end. So
exactly the lines that hold something get it when no other line is empty, and an empty line between others
is filled with the margin.
-/

namespace ModelText

namespace Text

/-! ## Lines -/

/-- The lines of a text, as line feeds separate them. There is one more of them than line feeds. -/
def lines (cs : List Char) : List (List Char) := cs.splitOn '\n'

/-- Lines with line feeds between them. -/
def joinLines (ls : List (List Char)) : List Char := ['\n'].intercalate ls

theorem joinLines_lines (cs : List Char) : joinLines (lines cs) = cs := List.intercalate_splitOn _

theorem joinLines_singleton (line : List Char) : joinLines [line] = line := by
  simp [joinLines, List.intercalate]

theorem joinLines_cons_cons (line next : List Char) (rest : List (List Char)) :
    joinLines (line :: next :: rest) = line ++ '\n' :: joinLines (next :: rest) := by
  simp [joinLines, List.intercalate]

/-- What stands in front of the first line stands in front of the whole. -/
theorem joinLines_append_cons (front line : List Char) (rest : List (List Char)) :
    joinLines ((front ++ line) :: rest) = front ++ joinLines (line :: rest) := by
  cases rest with
  | nil => rw [joinLines_singleton, joinLines_singleton]
  | cons next others => rw [joinLines_cons_cons, joinLines_cons_cons, List.append_assoc]

theorem lines_lineFeed (rest : List Char) : lines ('\n' :: rest) = [] :: lines rest := by
  rw [lines, List.splitOn_eq_splitOnP, List.splitOnP_cons_eq_if_modifyHead, if_pos (by simp), lines, List.splitOn_eq_splitOnP]

theorem lines_cons {c : Char} (hc : c ≠ '\n') {rest first : List Char} {later : List (List Char)}
    (hrest : lines rest = first :: later) : lines (c :: rest) = (c :: first) :: later := by
  rw [lines, List.splitOn_eq_splitOnP] at hrest ⊢
  rw [List.splitOnP_cons_eq_if_modifyHead, if_neg (by simpa using hc), hrest, List.modifyHead_cons]

theorem exists_lines (cs : List Char) : ∃ first later, lines cs = first :: later :=
  List.exists_cons_of_ne_nil (List.splitOnP_ne_nil _ cs)

/-- Only the empty text is one empty line. -/
theorem lines_cons_ne {c : Char} {rest first : List Char} {later : List (List Char)}
    (h : lines (c :: rest) = first :: later) : (first.isEmpty && later.isEmpty) = false := by
  obtain ⟨next, others, hrest⟩ := exists_lines rest
  by_cases hc : c = '\n'
  · rw [hc, lines_lineFeed, hrest] at h
    cases h
    rfl
  · rw [lines_cons hc hrest] at h
    cases h
    rfl

/-! ## Margins -/

/-- Lines with a margin in front of those that are marked. -/
def withMargins (margin : List Char) (marks : List Bool) (ls : List (List Char)) : List (List Char) :=
  List.zipWith (fun mark line => if mark then margin ++ line else line) marks ls

/-- Lines without the margin in front of those that are marked. -/
def withoutMargins (margin : List Char) (marks : List Bool) (ls : List (List Char)) : List (List Char) :=
  List.zipWith (fun mark line => if mark then line.drop margin.length else line) marks ls

/-- Marks the lines that begin in front of the end of the text: all but an empty one at the end. The first
line may be skipped. -/
def begunMarks : Bool → List (List Char) → List Bool
  | _, [] => []
  | skipFirst, line :: rest => (!skipFirst && !(line.isEmpty && rest.isEmpty)) :: begunMarks false rest

/-- Marks the lines that hold something. The first line may be skipped. -/
def filledMarks : Bool → List (List Char) → List Bool
  | _, [] => []
  | skipFirst, line :: rest => (!skipFirst && !line.isEmpty) :: filledMarks false rest

/-- The lines with another line behind them, without the first line where it is skipped. -/
def innerLines (skipFirst : Bool) (ls : List (List Char)) : List (List Char) :=
  (if skipFirst then ls.tail else ls).dropLast

/-- The offsets of the marked lines, of which the first one is at `offset`. -/
def markedStarts : Nat → List Bool → List (List Char) → List Nat
  | offset, mark :: marks, line :: rest =>
    (if mark then [offset] else []) ++ markedStarts (offset + byteCount line + 1) marks rest
  | _, _, _ => []

theorem withMargins_cons (margin : List Char) (mark : Bool) (marks : List Bool) (line : List Char)
    (rest : List (List Char)) : withMargins margin (mark :: marks) (line :: rest) =
      (if mark then margin ++ line else line) :: withMargins margin marks rest := rfl

/-- The first line of a text that is not empty is marked. -/
theorem begunMarks_lines {c : Char} {rest first : List Char} {later : List (List Char)}
    (h : lines (c :: rest) = first :: later) :
    begunMarks false (first :: later) = true :: begunMarks false later := by
  rw [begunMarks, lines_cons_ne h]
  rfl

theorem length_begunMarks (skipFirst : Bool) (ls : List (List Char)) :
    (begunMarks skipFirst ls).length = ls.length := by
  induction ls generalizing skipFirst with
  | nil => rfl
  | cons line rest ih => rw [begunMarks, List.length_cons, ih, List.length_cons]

theorem length_filledMarks (skipFirst : Bool) (ls : List (List Char)) :
    (filledMarks skipFirst ls).length = ls.length := by
  induction ls generalizing skipFirst with
  | nil => rfl
  | cons line rest ih => rw [filledMarks, List.length_cons, ih, List.length_cons]

/-- What is put in front of lines can be taken away again. -/
theorem withoutMargins_withMargins (margin : List Char) {marks : List Bool} {ls : List (List Char)}
    (h : marks.length = ls.length) : withoutMargins margin marks (withMargins margin marks ls) = ls := by
  induction ls generalizing marks with
  | nil =>
    rw [List.length_eq_zero_iff.mp h]
    rfl
  | cons line rest ih =>
    obtain ⟨mark, marks, rfl⟩ := List.exists_cons_of_length_eq_add_one h
    have hrest := ih (Nat.succ.inj h)
    rw [withMargins_cons, withoutMargins, List.zipWith_cons_cons, ← withoutMargins, hrest]
    cases mark with
    | false => rfl
    | true => exact congrArg (· :: rest) List.drop_left

/-- Each margin makes the text longer. -/
theorem length_joinLines_withMargins (margin : List Char) {marks : List Bool} {ls : List (List Char)}
    (h : marks.length = ls.length) : (joinLines (withMargins margin marks ls)).length =
      (joinLines ls).length + marks.count true * margin.length := by
  have hline (mark : Bool) (line : List Char) : (if mark then margin ++ line else line).length =
      line.length + [mark].count true * margin.length := by
    cases mark <;> simp [Nat.add_comm]
  induction ls generalizing marks with
  | nil =>
    rw [List.length_eq_zero_iff.mp h]
    simp [withMargins]
  | cons line rest ih =>
    obtain ⟨mark, marks, rfl⟩ := List.exists_cons_of_length_eq_add_one h
    have hrest := ih (Nat.succ.inj h)
    have hcount : (mark :: marks).count true = [mark].count true + marks.count true := by
      rw [← List.count_append, List.singleton_append]
    rw [hcount, Nat.add_mul]
    cases rest with
    | nil =>
      rw [List.length_eq_zero_iff.mp (Nat.succ.inj h)]
      simp only [withMargins, List.zipWith_cons_cons, List.zipWith_nil_left, joinLines_singleton, hline,
        List.count_nil]
      omega
    | cons next others =>
      obtain ⟨nextMark, marks, rfl⟩ := List.exists_cons_of_length_eq_add_one (Nat.succ.inj h)
      simp only [withMargins, List.zipWith_cons_cons, joinLines_cons_cons, List.length_append,
        List.length_cons, hline] at hrest ⊢
      omega

/-- Where no line with another one behind it is empty, the same lines are marked. -/
theorem begunMarks_eq_filledMarks {skipFirst : Bool} {ls : List (List Char)}
    (h : ∀ line ∈ innerLines skipFirst ls, line ≠ []) :
    begunMarks skipFirst ls = filledMarks skipFirst ls := by
  induction ls generalizing skipFirst with
  | nil => rfl
  | cons line rest ih =>
    cases skipFirst with
    | true => rw [begunMarks, filledMarks, ih h, Bool.not_true, Bool.false_and, Bool.false_and]
    | false =>
      cases rest with
      | nil => rw [begunMarks, filledMarks, List.isEmpty_nil, Bool.and_true, begunMarks, filledMarks]
      | cons next others =>
        have hline : line.isEmpty = false := List.isEmpty_eq_false_iff.mpr (h line List.mem_cons_self)
        have hrest : ∀ other ∈ innerLines false (next :: others), other ≠ [] :=
          fun other hmem => h other (List.mem_cons_of_mem line hmem)
        rw [begunMarks, filledMarks, ih hrest, hline, Bool.false_and]

/-- A line is marked without holding anything exactly when it is an empty line with another one behind it. -/
theorem count_begunMarks (skipFirst : Bool) (ls : List (List Char)) :
    (begunMarks skipFirst ls).count true =
      (filledMarks skipFirst ls).count true + (innerLines skipFirst ls).count [] := by
  induction ls generalizing skipFirst with
  | nil => cases skipFirst <;> rfl
  | cons line rest ih =>
    rw [begunMarks, filledMarks, List.count_cons, List.count_cons, ih false]
    cases skipFirst with
    | true => simp [innerLines]
    | false =>
      cases rest with
      | nil => simp [innerLines, filledMarks]
      | cons next others =>
        have hinner : innerLines false (line :: next :: others) = line :: innerLines false (next :: others) := rfl
        rw [hinner, List.count_cons]
        cases line with
        | nil =>
          change _ + _ + 1 = _ + 0 + (_ + 1)
          omega
        | cons c line =>
          change _ + _ + 1 = _ + 1 + (_ + 0)
          omega

/-! ## Indentation by lines -/

/-- Behind the first line, the margin is in front of all lines but an empty one at the end. -/
theorem indentInner_eq (margin : List Char) {cs first : List Char} {later : List (List Char)}
    (h : lines cs = first :: later) :
    indentInner margin cs = joinLines (first :: withMargins margin (begunMarks false later) later) := by
  induction cs generalizing first later with
  | nil =>
    cases h
    rfl
  | cons c rest ih =>
    obtain ⟨next, others, hrest⟩ := exists_lines rest
    have hinner := ih hrest
    by_cases hc : c = '\n'
    · subst hc
      rw [lines_lineFeed, hrest] at h
      cases h
      cases rest with
      | nil =>
        cases hrest
        rfl
      | cons d rest =>
        rw [indentInner, if_pos rfl, hinner, begunMarks_lines hrest, withMargins_cons, if_pos rfl, joinLines_cons_cons,
          joinLines_append_cons]
        · rfl
        · exact List.cons_ne_nil d rest
    · rw [lines_cons hc hrest] at h
      cases h
      have hcons := joinLines_append_cons [c] next (withMargins margin (begunMarks false later) later)
      rw [List.singleton_append, List.singleton_append, ← hinner] at hcons
      rw [hcons]
      cases rest with
      | nil => rfl
      | cons d rest =>
        rw [indentInner, if_neg hc]
        exact List.cons_ne_nil d rest

/-- Behind the first line, lines start where the margin is put. -/
theorem innerLineStarts_eq {cs first : List Char} {later : List (List Char)}
    (h : lines cs = first :: later) (offset : Nat) : innerLineStarts offset cs =
      markedStarts (offset + byteCount first + 1) (begunMarks false later) later := by
  induction cs generalizing first later offset with
  | nil =>
    cases h
    rfl
  | cons c rest ih =>
    obtain ⟨next, others, hrest⟩ := exists_lines rest
    by_cases hc : c = '\n'
    · subst hc
      rw [lines_lineFeed, hrest] at h
      cases h
      cases rest with
      | nil =>
        cases hrest
        rfl
      | cons d rest =>
        have hsize : ('\n').utf8Size = 1 := rfl
        rw [innerLineStarts, if_pos rfl, ih hrest, begunMarks_lines hrest, markedStarts, if_pos rfl, hsize]
        · rfl
        · exact List.cons_ne_nil d rest
    · rw [lines_cons hc hrest] at h
      cases h
      have hoffset : offset + byteCount (c :: next) + 1 = offset + c.utf8Size + byteCount next + 1 := by
        rw [byteCount]
        omega
      rw [hoffset, ← ih hrest]
      cases rest with
      | nil => rfl
      | cons d rest =>
        rw [innerLineStarts, if_neg hc]
        exact List.cons_ne_nil d rest

theorem isEmpty_eq_of_lines {s : String} {first : List Char} {later : List (List Char)}
    (h : lines s.toList = first :: later) : s.isEmpty = (first.isEmpty && later.isEmpty) := by
  rw [← String.ofList_toList (s := s)]
  cases hs : s.toList with
  | nil =>
    rw [hs] at h
    cases h
    rfl
  | cons c rest =>
    rw [hs] at h
    rw [lines_cons_ne h]
    simp

/-- A text is indented by putting the margin in front of all its lines but an empty one at the end. -/
theorem toList_indentLines (margin : String) (skipFirst : Bool) (s : String) :
    (indentLines margin skipFirst s).toList =
      joinLines (withMargins margin.toList (begunMarks skipFirst (lines s.toList)) (lines s.toList)) := by
  obtain ⟨first, later, hlines⟩ := exists_lines s.toList
  rw [indentLines, isEmpty_eq_of_lines hlines, String.toList_append, String.toList_ofList,
    indentInner_eq _ hlines, hlines, begunMarks, withMargins_cons]
  cases skipFirst with
  | true => rfl
  | false =>
    cases (first.isEmpty && later.isEmpty) with
    | true => rfl
    | false => exact (joinLines_append_cons margin.toList first _).symm

theorem lineStarts_eq (skipFirst : Bool) (s : String) : lineStarts skipFirst s =
    markedStarts 0 (begunMarks skipFirst (lines s.toList)) (lines s.toList) := by
  obtain ⟨first, later, hlines⟩ := exists_lines s.toList
  rw [lineStarts, isEmpty_eq_of_lines hlines, innerLineStarts_eq hlines, hlines, begunMarks, markedStarts]
  cases skipFirst with
  | true => rfl
  | false => cases (first.isEmpty && later.isEmpty) <;> rfl

end Text

open Text

namespace TracedText

/-- What indenting does to a text, line by line. -/
structure Indented (t : TracedText) (margin : String) (skipFirst : Bool) : Prop where
  /-- The margin is put in front of all lines but an empty one at the end. -/
  value : (t.indentLines margin skipFirst).value.toList =
    joinLines (withMargins margin.toList (begunMarks skipFirst (lines t.value.toList)) (lines t.value.toList))
  /-- Without the margins, it is the text of before. -/
  restored : joinLines (withoutMargins margin.toList (begunMarks skipFirst (lines t.value.toList))
    (withMargins margin.toList (begunMarks skipFirst (lines t.value.toList)) (lines t.value.toList))) =
      t.value.toList
  /-- The traces are moved at the starts of the same lines. -/
  objects : (t.indentLines margin skipFirst).objects =
    t.objects.indent (markedStarts 0 (begunMarks skipFirst (lines t.value.toList)) (lines t.value.toList))
      margin.utf8ByteSize
  nodes : (t.indentLines margin skipFirst).nodes =
    t.nodes.indent (markedStarts 0 (begunMarks skipFirst (lines t.value.toList)) (lines t.value.toList))
      margin.utf8ByteSize
  /-- The margin is in front of the lines that hold something, and of no other ones, exactly when no line
  in front of another one is empty. -/
  filled_iff : (t.indentLines margin skipFirst).value.toList =
      joinLines (withMargins margin.toList (filledMarks skipFirst (lines t.value.toList))
        (lines t.value.toList)) ↔
    ∀ line ∈ innerLines skipFirst (lines t.value.toList), line ≠ []

/-- Indenting puts the margin in front of the lines that hold something and of the empty ones between them,
and changes nothing else. -/
theorem indented (t : TracedText) {margin : String} (hmargin : margin ≠ "") (skipFirst : Bool) :
    t.Indented margin skipFirst := by
  have hvalue : (t.indentLines margin skipFirst).value.toList = _ :=
    toList_indentLines margin skipFirst t.value
  have hbegun := length_begunMarks skipFirst (lines t.value.toList)
  have hfilled := length_filledMarks skipFirst (lines t.value.toList)
  have hcount := count_begunMarks skipFirst (lines t.value.toList)
  have hpos : 0 < margin.toList.length :=
    List.length_pos_iff.mpr fun hnil => hmargin (String.toList_inj.mp hnil)
  refine ⟨hvalue, ?_, ?_, ?_, ?_⟩
  · rw [withoutMargins_withMargins _ hbegun, joinLines_lines]
  · rw [← lineStarts_eq]
    rfl
  · rw [← lineStarts_eq]
    rfl
  · rw [hvalue]
    constructor
    · intro hsame line hmem hnil
      have hlength := congrArg List.length hsame
      rw [length_joinLines_withMargins _ hbegun, length_joinLines_withMargins _ hfilled] at hlength
      have hequal := Nat.eq_of_mul_eq_mul_right hpos (Nat.add_left_cancel hlength)
      have hempty : 0 < (innerLines skipFirst (lines t.value.toList)).count [] :=
        List.count_pos_iff.mpr (hnil ▸ hmem)
      omega
    · intro hfull
      rw [begunMarks_eq_filledMarks hfull]

/-- The first line is skipped, and the empty line at the end stays empty. -/
theorem indented_two_lines :
    let t := TracedText.ofString "a\nb\n" (some 0) none
    "  " ≠ "" ∧ t.Indented "  " true ∧ (t.indentLines "  " true).value = "a\n  b\n" ∧
      (t.indentLines "  " true).value.toList =
        joinLines (withMargins [' ', ' '] (filledMarks true (lines t.value.toList)) (lines t.value.toList)) := by
  intro t
  have hmargin : "  " ≠ "" := by decide
  have hindented := t.indented hmargin true
  exact ⟨hmargin, hindented, by decide +kernel, hindented.filled_iff.mpr (by decide +kernel)⟩

/-- An empty line between two others is filled with the margin. -/
theorem indentLines_empty_line :
    ¬ ∀ (t : TracedText) (margin : String) (skipFirst : Bool), margin ≠ "" →
      (t.indentLines margin skipFirst).value.toList =
        joinLines (withMargins margin.toList (filledMarks skipFirst (lines t.value.toList))
          (lines t.value.toList)) := by
  intro h
  have hempty := h (TracedText.ofString "a\n\nb" none none) "  " false (by decide)
  exact absurd hempty (by decide +kernel)

end TracedText

end ModelText
