/-!
# Splitting texts

The parts of a text around the first or the last occurrence of a token, and the tokens at its ends.
-/

namespace ModelText.Text

/-- What stands before and after the first occurrence of `mark`. -/
def splitFirst (mark : List Char) : List Char → Option (List Char × List Char)
  | [] => if mark.isEmpty then some ([], []) else none
  | c :: rest =>
    if mark.isPrefixOf (c :: rest) then some ([], (c :: rest).drop mark.length)
    else (splitFirst mark rest).map fun (before, after) => (c :: before, after)

/-- What stands before and after the last occurrence of `mark`. -/
def splitLast (mark : List Char) : List Char → Option (List Char × List Char)
  | [] => if mark.isEmpty then some ([], []) else none
  | c :: rest =>
    match splitLast mark rest with
    | some (before, after) => some (c :: before, after)
    | none => if mark.isPrefixOf (c :: rest) then some ([], (c :: rest).drop mark.length) else none

/-- Whether a text begins with a token. -/
def startsWith (text token : String) : Bool := token.toList.isPrefixOf text.toList

/-- Whether a text ends with a token. -/
def endsWith (text token : String) : Bool := token.toList.isSuffixOf text.toList

/-- The text behind a token that it begins with. -/
def dropStart? (text token : String) : Option String :=
  if startsWith text token then some (String.ofList (text.toList.drop token.toList.length)) else none

/-- The text in front of a token that it ends with. -/
def dropEnd? (text token : String) : Option String :=
  if endsWith text token then
    some (String.ofList (text.toList.take (text.toList.length - token.toList.length)))
  else
    none

/-- The two parts and the token between them make up the text. -/
theorem eq_of_splitFirst {mark cs before after : List Char}
    (h : splitFirst mark cs = some (before, after)) : cs = before ++ mark ++ after := by
  induction cs generalizing before with
  | nil =>
    simp only [splitFirst] at h
    split at h
    · simp_all
    · cases h
  | cons c rest ih =>
    simp only [splitFirst] at h
    split at h
    · next hp =>
      obtain ⟨t, ht⟩ := List.isPrefixOf_iff_prefix.mp hp
      simp only [Option.some.injEq, Prod.mk.injEq] at h
      rw [← h.1, ← h.2, ← ht]
      simp
    · simp only [Option.map_eq_some_iff, Prod.exists, Prod.mk.injEq] at h
      obtain ⟨b, a, hb, rfl, rfl⟩ := h
      simp [ih hb]

/-- The two parts and the token between them make up the text. -/
theorem eq_of_splitLast {mark cs before after : List Char}
    (h : splitLast mark cs = some (before, after)) : cs = before ++ mark ++ after := by
  induction cs generalizing before after with
  | nil =>
    simp only [splitLast] at h
    split at h
    · simp_all
    · cases h
  | cons c rest ih =>
    simp only [splitLast] at h
    split at h
    · next b a hb =>
      simp only [Option.some.injEq, Prod.mk.injEq] at h
      rw [ih hb, ← h.1, ← h.2]
      simp
    · split at h
      · next hp =>
        obtain ⟨t, ht⟩ := List.isPrefixOf_iff_prefix.mp hp
        simp only [Option.some.injEq, Prod.mk.injEq] at h
        rw [← h.1, ← h.2, ← ht]
        simp
      · cases h

end ModelText.Text
