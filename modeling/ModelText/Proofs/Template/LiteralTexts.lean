import ModelText.Proofs.Number.Numerals
import ModelText.Proofs.Template.Rereading

/-!
# Literals read back

Whatever it holds, a literal that is not a double is read back from its text.
-/

namespace ModelText.Template

open Source
open Text (byteCount)

namespace Literal

/-! ## Strings -/

theorem unquote?_escape_append (c : Char) (rest : List Char) :
    unquote? (escape c ++ rest) = (unquote? rest).map (c :: ·) := by
  unfold escape
  split
  · rfl
  · rfl
  · rfl
  · rfl
  · next hquote hbackslash _ _ =>
    rw [List.cons_append, List.nil_append, unquote?, if_neg hquote]
    · exact fun heq => absurd heq hbackslash
    · exact fun _ _ heq => absurd heq hbackslash

theorem unquote?_escape (cs : List Char) : unquote? (cs.flatMap escape ++ ['"']) = some cs := by
  induction cs with
  | nil => rfl
  | cons c cs ih => rw [List.flatMap_cons, List.append_assoc, unquote?_escape_append, ih, Option.map_some]

/-- The words that are read as literals. -/
def words : List String := ["true", "false", "null"]

theorem not_mem_words {text : String} (h : ∀ c, text.toList.head? = some c → c ∉ ['t', 'f', 'n']) :
    text ∉ words := by
  have hheads : ∀ word ∈ words, ∃ c ∈ ['t', 'f', 'n'], word.toList.head? = some c := by decide
  intro hmem
  obtain ⟨c, hc, hhead⟩ := hheads text hmem
  exact h c hhead hc

theorem read?_quote (s : String) : read? (quote s) = some (.text s) := by
  have hword : quote s ∉ words := not_mem_words fun c hc => by
    rw [toList_quote] at hc
    cases hc
    decide
  simp only [words, List.mem_cons, List.not_mem_nil, or_false, not_or] at hword
  obtain ⟨htrue, hfalse, hnull⟩ := hword
  unfold read?
  rw [if_neg htrue, if_neg hfalse, if_neg hnull, toList_quote]
  simp only [unquote?_escape, Option.map_some, String.ofList_toList]

/-- What is neither a word nor in quotes is read as a number. -/
theorem read?_eq_readNumber? {text : String} (hword : text ∉ words)
    (hquote : text.toList.head? ≠ some '"') : read? text = readNumber? text.toList := by
  simp only [words, List.mem_cons, List.not_mem_nil, or_false, not_or] at hword
  obtain ⟨htrue, hfalse, hnull⟩ := hword
  unfold read?
  rw [if_neg htrue, if_neg hfalse, if_neg hnull]
  split
  · next heq => exact absurd (by rw [heq]; rfl) hquote
  · rfl

/-! ## Integers -/

/-- An integer is read back. -/
theorem readInt64_toString (value : Int64) :
    Number.readInt64 (toString value.toInt).toList = some value := by
  have hlt := value.toInt_lt
  have hge := value.le_toInt
  have hvalue : Int64.ofInt value.toInt = value := Int64.ofInt_toInt value
  have hsign : Number.signBit = 9223372036854775808 := rfl
  cases hint : value.toInt with
  | ofNat n =>
    rw [hint] at hlt hvalue
    have hle : n ≤ Number.signBit - 1 := by
      have hlt : (n : Int) < 2 ^ 63 := hlt
      omega
    obtain ⟨c, cs, hchars, hdigit⟩ := Number.exists_digit_repr n
    have htext : (toString (Int.ofNat n)).toList = c :: cs := hchars
    have hminus : c ≠ '-' := by
      rintro rfl
      cases hdigit
    have hread : Number.readNat (Number.signBit - 1) (c :: cs) = some n := by
      rw [← hchars, Number.readNat_repr, Option.filter_some, decide_eq_true hle, if_pos rfl]
    rw [htext]
    unfold Number.readInt64
    split
    · next heq => exact absurd (List.cons.inj heq).1 hminus
    · rw [hread]
      exact congrArg some hvalue
  | negSucc n =>
    rw [hint] at hge hvalue
    have htext : (toString (Int.negSucc n)).toList = '-' :: (n + 1).repr.toList := String.toList_append
    have hle : n + 1 ≤ Number.signBit := by omega
    rw [htext, Number.readInt64, Number.digits?_repr]
    dsimp only
    rw [if_pos hle]
    exact congrArg some hvalue

theorem readNumber?_toString (value : Int64) :
    readNumber? (toString value.toInt).toList = some (.int value) := by
  have hread := readInt64_toString value
  cases hint : value.toInt with
  | ofNat n =>
    obtain ⟨c, cs, hchars, hdigit⟩ := Number.exists_digit_repr n
    have htext : (toString (Int.ofNat n)).toList = c :: cs := hchars
    rw [hint, htext] at hread
    have hminus : c ≠ '-' := by
      rintro rfl
      cases hdigit
    rw [htext]
    unfold readNumber?
    split
    · next heq => exact absurd (List.cons.inj heq).1 hminus
    · simp only [List.head?_cons, Option.any_some, hdigit, if_true, hread]
  | negSucc n =>
    obtain ⟨c, cs, hchars, hdigit⟩ := Number.exists_digit_repr (n + 1)
    have htext : (toString (Int.negSucc n)).toList = '-' :: (n + 1).repr.toList := String.toList_append
    rw [hint, htext, hchars] at hread
    rw [htext, hchars]
    simp only [readNumber?, List.head?_cons, Option.any_some, hdigit, if_true, hread]

/-- A name is no literal, unless it is one of the words. -/
theorem read?_of_name {text : String} (hword : text ∉ words) {c : Char} (hhead : text.toList.head? = some c)
    (hc : Input.isNameChar true c = true) : read? text = none := by
  have hquote : text.toList.head? ≠ some '"' := by
    rw [hhead]
    rintro ⟨⟩
    cases hc
  have hminus : c ≠ '-' := by
    rintro rfl
    cases hc
  have hdigit : c.isDigit = false := by
    simp only [Input.isNameChar, Bool.not_true, Bool.false_and, Bool.or_false, Bool.or_eq_true, beq_iff_eq,
      Input.isAlpha_iff] at hc
    have hrange : c.toNat = 95 ∨ 65 ≤ c.toNat ∧ c.toNat ≤ 90 ∨ 97 ≤ c.toNat ∧ c.toNat ≤ 122 := by
      rcases hc with rfl | hc
      · exact .inl rfl
      · exact .inr hc
    rw [← Bool.not_eq_true]
    intro hdigit
    simp only [Char.isDigit, Bool.and_eq_true, decide_eq_true_eq] at hdigit
    have hdigits : 48 ≤ c.toNat ∧ c.toNat ≤ 57 := hdigit
    omega
  obtain ⟨cs, hchars⟩ := List.head?_eq_some_iff.mp hhead
  rw [read?_eq_readNumber? hword hquote, hchars]
  unfold readNumber?
  split
  · next heq => exact absurd (List.cons.inj heq).1 hminus
  · simp only [List.head?_cons, Option.any_some, hdigit, Bool.false_eq_true, if_false]

/-! ## All literals -/

/-- A literal is read as one that is written alike. -/
def Returns (value : Literal) : Prop := ∃ own, read? value.write = some own ∧ own.write = value.write

/-- From its text a literal is read as one that it is related to. -/
def ReturnsTo (Rel : Literal → Literal → Prop) (value : Literal) : Prop :=
  ∃ own, read? value.write = some own ∧ Rel own value

theorem head?_of_isNumeric {cs : List Char} (h : IsNumeric cs) {c : Char} (hc : cs.head? = some c) :
    c.isDigit = true ∨ c ∈ ['.', '-', 'N', 'i'] := by
  obtain ⟨body, hcs, hbody⟩ := h
  rcases hcs with rfl | rfl
  · rcases hbody with rfl | rfl | hbody
    · cases hc
      exact .inr (by decide)
    · cases hc
      exact .inr (by decide)
    · rcases hbody c (List.mem_of_head? hc) with hdigit | rfl
      · exact .inl hdigit
      · exact .inr (by decide)
  · cases hc
    exact .inr (by decide)

theorem ne_of_isNumeric {cs : List Char} (h : IsNumeric cs) {c : Char} (hc : c ∈ ['"', '!', 't', 'f', 'n']) :
    cs.head? ≠ some c := by
  have hsigns : ∀ c ∈ ['"', '!', 't', 'f', 'n'], c.isDigit = false ∧ c ∉ ['.', '-', 'N', 'i'] := by decide
  obtain ⟨hdigit, hmem⟩ := hsigns c hc
  intro hhead
  rcases head?_of_isNumeric h hhead with h | h
  · rw [hdigit] at h
    cases h
  · exact hmem h

theorem read?_of_isNumeric {text : String} (h : IsNumeric text.toList) :
    read? text = readNumber? text.toList := by
  refine read?_eq_readNumber? (not_mem_words fun c hc => ?_) (ne_of_isNumeric h (by simp))
  have hsubset : ∀ d ∈ ['t', 'f', 'n'], d ∈ ['"', '!', 't', 'f', 'n'] := by decide
  exact fun hmem => ne_of_isNumeric h (hsubset c hmem) hc

/-- A literal that is not a double is read back. -/
theorem read?_write {value : Literal} (h : ∀ x, value ≠ .double x) : read? value.write = some value := by
  cases value with
  | double x => exact absurd rfl (h x)
  | text s => exact read?_quote s
  | bool value => cases value <;> rfl
  | null => rfl
  | int value =>
    have hnumeric : IsNumeric (write (.int value)).toList := isNumeric_int _
    rw [read?_of_isNumeric hnumeric]
    exact readNumber?_toString value

end Literal

/-! ## Literals as operands -/

namespace Input

theorem isCore_digits {cs : List Char} (h : ∀ c ∈ cs, c.isDigit = true ∨ c = '.') (hne : cs ≠ []) : IsCore cs := by
  have hquiet : ∀ c ∈ cs, isEdge c = true ∧ c ∉ bracketChars ∧ isQuiet c = true := by
    intro c hc
    rcases h c hc with hdigit | rfl
    · have hname : isNameChar false c = true := by rw [isNameChar, hdigit, Bool.not_false, Bool.true_and, Bool.or_true]
      have hsigns : ∀ d ∈ bracketChars ++ ',' :: operatorChars, isNameChar false d = false := by decide
      refine ⟨isEdge_of_isNameChar hname, fun hmem => ?_, ?_⟩
      · exact ne_of_isNameChar hname (hsigns c (List.mem_append_left _ hmem)) rfl
      · have hcomma : c ≠ ',' := ne_of_isNameChar hname (by decide)
        have hsign : c ∉ operatorChars := fun hmem =>
          ne_of_isNameChar hname (hsigns c (by simp [hmem])) rfl
        simp [isQuiet, hcomma, hsign]
    · decide
  refine ⟨.of_plain fun c hc => (hquiet c hc).2, ?_, ?_⟩
  · exact ⟨cs.head hne, List.head?_eq_some_head hne, (hquiet _ (List.head_mem hne)).1⟩
  · exact ⟨cs.getLast hne, List.getLast?_eq_some_getLast hne, (hquiet _ (List.getLast_mem hne)).1⟩

/-- The text of a number is an operand. -/
theorem isOperand_of_isNumeric {cs : List Char} (h : IsNumeric cs) (hread : Literal.readNumber? cs ≠ none) :
    IsOperand cs := by
  obtain ⟨body, hcs, hbody⟩ := h
  have hne : body ≠ [] := by
    rintro rfl
    rcases hcs with rfl | rfl <;> exact hread rfl
  have hcore : IsCore body := by
    rcases hbody with rfl | rfl | hdigits
    · rcases hcs with rfl | rfl <;> exact absurd rfl hread
    · rcases hcs with rfl | rfl <;> exact absurd rfl hread
    · exact isCore_digits hdigits hne
  rcases hcs with rfl | rfl
  · exact .core hcore
  · exact .sign (by simp) (.core hcore)

theorem isCore_quote (s : String) : IsCore (Literal.quote s).toList := by
  refine ⟨.quote s, ⟨'"', ?_, by decide⟩, ⟨'"', ?_, by decide⟩⟩
  · rw [toList_quote]
    rfl
  · rw [toList_quote, ← List.cons_append, List.getLast?_concat]

theorem isCore_word {text : String} (h : text ∈ Literal.words) : IsCore text.toList := by
  have hwords : ∀ word ∈ Literal.words, (∀ c ∈ word.toList, c ∉ bracketChars ∧ isQuiet c = true) ∧
      word.toList.head?.any isEdge = true ∧ word.toList.getLast?.any isEdge = true := by decide
  obtain ⟨hquiet, hhead, hlast⟩ := hwords text h
  exact ⟨.of_plain hquiet, (Option.any_eq_true _ _).mp hhead, (Option.any_eq_true _ _).mp hlast⟩

/-- The text of a literal that is read back is an operand. -/
theorem isOperand_write {own value : Literal} (hread : Literal.read? value.write = some own) :
    IsOperand value.write.toList := by
  have hnumeric (hnumeric : IsNumeric value.write.toList) : IsOperand value.write.toList := by
    rw [Literal.read?_of_isNumeric hnumeric] at hread
    exact isOperand_of_isNumeric hnumeric (by rw [hread]; exact Option.some_ne_none _)
  cases value with
  | int value => exact hnumeric (isNumeric_int _)
  | double value => exact hnumeric (isNumeric_doubleText _)
  | text s => exact .core (isCore_quote s)
  | bool value => exact .core (isCore_word (by cases value <;> decide))
  | null => exact .core (isCore_word (by decide))

theorem head?_write_ne (value : Literal) : value.write.toList.head? ≠ some '!' := by
  cases value with
  | int value => exact Literal.ne_of_isNumeric (isNumeric_int _) (by simp)
  | double value => exact Literal.ne_of_isNumeric (isNumeric_doubleText _) (by simp)
  | text s =>
    rw [Literal.write, toList_quote]
    simp
  | bool value => cases value <;> decide
  | null => decide

end Input

end ModelText.Template
