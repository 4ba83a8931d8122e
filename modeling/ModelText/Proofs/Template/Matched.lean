import ModelText.Proofs.Template.Spelling

/-!
# Matched brackets

A search in an expression skips string literals and whole pairs of brackets. What it passes is told by the
characters outside of them alone.
-/

namespace ModelText.Template

/-- The quote and the brackets. -/
def bracketChars : List Char := "\"()[]".toList

/-- What stands between the quotes of a string literal, where a backslash hides the character behind it. -/
inductive Quotable : List Char → Prop where
  | nil : Quotable []
  | plain {c : Char} {rest : List Char} (hquote : c ≠ '"') (hbackslash : c ≠ '\\') (hrest : Quotable rest) :
    Quotable (c :: rest)
  | hidden {c : Char} {rest : List Char} (hrest : Quotable rest) : Quotable ('\\' :: c :: rest)

theorem quotable_escape (cs : List Char) : Quotable (cs.flatMap Literal.escape) := by
  induction cs with
  | nil => exact .nil
  | cons c cs ih =>
    rw [List.flatMap_cons]
    rcases escape_eq c with ⟨hescape, hquote, hbackslash, -⟩ | ⟨d, -, hescape⟩
    · rw [hescape]
      exact .plain hquote hbackslash ih
    · rw [hescape]
      exact .hidden ih

/-- Quotes and brackets have their partners, and the characters outside of them are among those asked for. -/
inductive Matched : (Char → Bool) → List Char → Prop where
  | nil {p : Char → Bool} : Matched p []
  | plain {p : Char → Bool} {c : Char} {rest : List Char} (hc : c ∉ bracketChars) (hp : p c = true)
    (hrest : Matched p rest) : Matched p (c :: rest)
  | quoted {p : Char → Bool} {content rest : List Char} (hcontent : Quotable content) (hrest : Matched p rest) :
    Matched p ('"' :: content ++ '"' :: rest)
  | brackets {p : Char → Bool} {pair : Char × Char} (hpair : pair ∈ bracketPairs) {inner rest : List Char}
    (hinner : Matched (fun _ => true) inner) (hrest : Matched p rest) :
    Matched p (pair.1 :: inner ++ pair.2 :: rest)

namespace Matched

variable {p q : Char → Bool} {xs ys : List Char}

theorem mono (h : Matched p xs) (hpq : ∀ c, p c = true → q c = true) : Matched q xs := by
  induction h with
  | nil => exact nil
  | plain hc hp _ ih => exact plain hc (hpq _ hp) (ih hpq)
  | quoted hcontent _ ih => exact quoted hcontent (ih hpq)
  | brackets hpair hinner _ _ ih => exact brackets hpair hinner (ih hpq)

/-- Inside of brackets any characters may stand. -/
theorem any (h : Matched p xs) : Matched (fun _ => true) xs := h.mono fun _ _ => rfl

theorem append (hxs : Matched p xs) (hys : Matched p ys) : Matched p (xs ++ ys) := by
  induction hxs with
  | nil => exact hys
  | plain hc hp _ ih => exact plain hc hp (ih hys)
  | quoted hcontent _ ih =>
    rw [List.append_assoc, List.cons_append]
    exact quoted hcontent (ih hys)
  | brackets hpair hinner _ _ ih =>
    rw [List.append_assoc, List.cons_append]
    exact brackets hpair hinner (ih hys)

theorem of_plain (h : ∀ c ∈ xs, c ∉ bracketChars ∧ p c = true) : Matched p xs := by
  induction xs with
  | nil => exact nil
  | cons c xs ih =>
    obtain ⟨⟨hc, hp⟩, hxs⟩ := List.forall_mem_cons.mp h
    exact plain hc hp (ih hxs)

theorem quote_append (s : String) (hxs : Matched p xs) : Matched p ((Literal.quote s).toList ++ xs) := by
  rw [toList_quote, List.cons_append, List.append_assoc]
  exact quoted (quotable_escape _) hxs

theorem quote (s : String) : Matched p (Literal.quote s).toList := by
  rw [← List.append_nil (Literal.quote s).toList]
  exact quote_append s nil

theorem bracketed (pair : Char × Char) (hpair : pair ∈ bracketPairs) (hxs : Matched (fun _ => true) xs) :
    Matched p (pair.1 :: xs ++ [pair.2]) := brackets hpair hxs nil

theorem intercalate {separator : List Char} (hseparator : Matched p separator) {parts : List (List Char)}
    (h : ∀ part ∈ parts, Matched p part) : Matched p (List.intercalate separator parts) := by
  induction parts with
  | nil => exact nil
  | cons part rest ih =>
    obtain ⟨hpart, hrest⟩ := List.forall_mem_cons.mp h
    cases rest with
    | nil => rwa [List.intercalate_singleton]
    | cons next rest =>
      rw [List.intercalate_cons_cons]
      exact (hpart.append hseparator).append (ih hrest)

end Matched

theorem not_mem_bracketChars_of_isPlain {c : Char} (h : isPlain c = true) : c ∉ bracketChars := by
  have hsubset : ∀ d ∈ bracketChars, d ∈ delimiterChars := by decide
  rw [isPlain, Bool.not_eq_true', ← Bool.not_eq_true, List.contains_iff_mem] at h
  exact fun hc => h (hsubset c hc)

theorem Balanced.matched {allowed : String → Prop} {xs : List Char} (h : Balanced allowed xs) : Matched (fun _ => true) xs := by
  induction h with
  | nil => exact .nil
  | plain hc _ ih => exact .plain (not_mem_bracketChars_of_isPlain hc) rfl ih
  | quoted _ _ ih => exact .quote_append _ ih
  | brackets hpair _ _ ihinner ihrest => exact .brackets hpair ihinner ihrest

end ModelText.Template
