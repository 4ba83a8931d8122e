import ModelText.Text.Split

/-!
# Occurrences of tokens

A text is split at the first or at the last occurrence of a token. There is such a split exactly when the token occurs
in the text, and no occurrence lies in front of the first one or behind the last one.
-/

namespace ModelText.Text

variable {mark cs before after xs ys : List Char}

/-! ## The first occurrence -/

theorem splitFirst_ne_none (h : mark <:+: cs) : splitFirst mark cs ≠ none := by
  induction cs with
  | nil =>
    rw [List.infix_nil.mp h]
    exact Option.some_ne_none _
  | cons c rest ih =>
    unfold splitFirst
    split
    · exact Option.some_ne_none _
    · next hbegins =>
      rcases List.infix_cons_iff.mp h with hprefix | hrest
      · exact absurd (List.isPrefixOf_iff_prefix.mpr hprefix) hbegins
      · rw [Ne, Option.map_eq_none_iff]
        exact ih hrest

theorem splitFirst_eq_none_iff : splitFirst mark cs = none ↔ ¬ mark <:+: cs := by
  refine ⟨fun hnone hwithin => splitFirst_ne_none hwithin hnone, fun h => ?_⟩
  cases hsplit : splitFirst mark cs with
  | none => rfl
  | some parts => exact absurd ⟨parts.1, parts.2, (eq_of_splitFirst hsplit).symm⟩ h

/-- No occurrence lies in front of the first one. -/
theorem length_le_of_splitFirst (h : splitFirst mark cs = some (before, after)) (hcs : cs = xs ++ (mark ++ ys)) :
    before.length ≤ xs.length := by
  induction cs generalizing before xs with
  | nil =>
    unfold splitFirst at h
    split at h
    · cases h
      exact Nat.zero_le _
    · cases h
  | cons c rest ih =>
    unfold splitFirst at h
    split at h
    · cases h
      exact Nat.zero_le _
    · next hbegins =>
      obtain ⟨⟨front, back⟩, hsplit, heq⟩ := Option.map_eq_some_iff.mp h
      cases heq
      cases xs with
      | nil => exact absurd (List.isPrefixOf_iff_prefix.mpr ⟨ys, hcs.symm⟩) hbegins
      | cons d xs => exact Nat.succ_le_succ (ih hsplit (List.cons.inj hcs).2)

/-- In front of its first occurrence a token does not occur. -/
theorem not_infix_of_splitFirst (hmark : mark ≠ []) (h : splitFirst mark cs = some (before, after)) :
    ¬ mark <:+: before := by
  rintro ⟨xs, ys, rfl⟩
  have hcs := eq_of_splitFirst h
  rw [List.append_assoc, List.append_assoc, List.append_assoc] at hcs
  have hle := length_le_of_splitFirst h hcs
  have hpos := List.length_pos_iff.mpr hmark
  simp only [List.length_append] at hle
  omega

/-- A text is split at a character behind what does not hold it. -/
theorem splitFirst_of_not_mem {c : Char} (h : c ∉ before) :
    splitFirst [c] (before ++ c :: after) = some (before, after) := by
  induction before with
  | nil => simp [splitFirst]
  | cons d before ih =>
    obtain ⟨hne, hrest⟩ := not_or.mp (mt List.mem_cons.mpr h)
    have hbegins : [c].isPrefixOf (d :: (before ++ c :: after)) = false := by
      simp [List.isPrefixOf, hne]
    rw [List.cons_append, splitFirst, hbegins, if_neg Bool.false_ne_true, ih hrest]
    rfl

/-! ## The last occurrence -/

theorem splitLast_ne_none (h : mark <:+: cs) : splitLast mark cs ≠ none := by
  induction cs with
  | nil =>
    rw [List.infix_nil.mp h]
    exact Option.some_ne_none _
  | cons c rest ih =>
    unfold splitLast
    split
    · exact Option.some_ne_none _
    · next hnone =>
      rcases List.infix_cons_iff.mp h with hprefix | hrest
      · rw [if_pos (List.isPrefixOf_iff_prefix.mpr hprefix)]
        exact Option.some_ne_none _
      · exact absurd hnone (ih hrest)

theorem splitLast_eq_none_iff : splitLast mark cs = none ↔ ¬ mark <:+: cs := by
  refine ⟨fun hnone hwithin => splitLast_ne_none hwithin hnone, fun h => ?_⟩
  cases hsplit : splitLast mark cs with
  | none => rfl
  | some parts => exact absurd ⟨parts.1, parts.2, (eq_of_splitLast hsplit).symm⟩ h

/-- An occurrence is the last one when the first character of the token is found nowhere behind it. -/
theorem splitLast_of_not_mem {c : Char} (h : c ∉ mark ++ after) :
    splitLast (c :: mark) (before ++ c :: (mark ++ after)) = some (before, after) := by
  induction before with
  | nil =>
    have hnone : splitLast (c :: mark) (mark ++ after) = none :=
      splitLast_eq_none_iff.mpr fun hwithin => h (hwithin.subset List.mem_cons_self)
    have hbegins : (c :: mark).isPrefixOf (c :: (mark ++ after)) = true :=
      List.isPrefixOf_iff_prefix.mpr (List.prefix_append (c :: mark) after)
    rw [List.nil_append, splitLast, hnone]
    dsimp only
    rw [if_pos hbegins, List.length_cons, List.drop_succ_cons, List.drop_left]
  | cons d before ih => rw [List.cons_append, splitLast, ih]

/-- No occurrence lies behind the last one. -/
theorem length_le_of_splitLast (h : splitLast mark cs = some (before, after)) (hcs : cs = xs ++ (mark ++ ys)) :
    xs.length ≤ before.length := by
  induction cs generalizing before xs with
  | nil =>
    rw [(List.append_eq_nil_iff.mp hcs.symm).1]
    exact Nat.zero_le _
  | cons c rest ih =>
    cases xs with
    | nil => exact Nat.zero_le _
    | cons d xs =>
      obtain ⟨-, hrest⟩ := List.cons.inj hcs
      have hwithin : mark <:+: rest := ⟨xs, ys, by rw [List.append_assoc, hrest]; rfl⟩
      unfold splitLast at h
      split at h
      · next hlater =>
        cases h
        exact Nat.succ_le_succ (ih hlater hrest)
      · next hnone => exact absurd hnone (splitLast_ne_none hwithin)

end ModelText.Text
