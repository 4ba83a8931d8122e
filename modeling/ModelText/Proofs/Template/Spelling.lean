import ModelText.Proofs.Template.Syntax

/-!
# How expressions are spelled

In the text of an expression every bracket and every quote has its partner, and the signs that
delimiters of tags are made of occur in string literals only. So a tag that holds an expression ends
where it should, provided that no literal holds a delimiter.
-/

namespace ModelText.Template

/-- A statement about the members of a list is decided over the list, not over all characters. -/
instance (priority := 2000) decidableForallMem {p : Char → Prop} [DecidablePred p]
    (cs : List Char) : Decidable (∀ c ∈ cs, p c) := List.decidableBAll p cs

/-- The same for a member that is to be found. -/
instance (priority := 2000) decidableExistsMem {p : Char → Prop} [DecidablePred p]
    (cs : List Char) : Decidable (∃ c ∈ cs, p c) := List.decidableBEx p cs

/-! ## Pairs of characters -/

theorem pair_infix_cons {a b c : Char} {cs : List Char} (h : [a, b] <:+: c :: cs) :
    (c = a ∧ cs.head? = some b) ∨ [a, b] <:+: cs := by
  rcases List.infix_cons_iff.mp h with hprefix | h
  · obtain ⟨rfl, hrest⟩ := List.cons_prefix_cons.mp hprefix
    cases cs with
    | nil => cases List.prefix_nil.mp hrest
    | cons d ds => exact .inl ⟨rfl, congrArg some (List.cons_prefix_cons.mp hrest).1.symm⟩
  · exact .inr h

theorem pair_infix_append {a b : Char} {xs ys : List Char} (h : [a, b] <:+: xs ++ ys) :
    [a, b] <:+: xs ∨ [a, b] <:+: ys ∨ xs.getLast? = some a ∧ ys.head? = some b := by
  induction xs with
  | nil => exact .inr (.inl h)
  | cons c xs ih =>
    rcases pair_infix_cons h with ⟨rfl, hhead⟩ | h
    · cases xs with
      | nil => exact .inr (.inr ⟨rfl, hhead⟩)
      | cons d xs =>
        cases hhead
        exact .inl ⟨[], xs, rfl⟩
    · rcases ih h with h | h | ⟨hlast, hhead⟩
      · exact .inl (List.infix_cons h)
      · exact .inr (.inl h)
      · refine .inr (.inr ⟨?_, hhead⟩)
        rw [List.getLast?_cons, hlast]
        rfl

/-- Whether a text holds neither the opening nor the closing delimiter of a tag. -/
def Untagged (cs : List Char) : Prop := ¬ ['<', '%'] <:+: cs ∧ ¬ ['%', '>'] <:+: cs

/-- A content of a string literal in which no delimiter of a tag stands. -/
def Tagless (content : String) : Prop := Untagged content.toList

/-! ## Balanced texts -/

/-- The characters that delimiters, brackets and quotes are made of, and the line feed. -/
def delimiterChars : List Char := "\"()[]\x7b\x7d%\n".toList

def isPlain (c : Char) : Bool := !delimiterChars.contains c

/-- The brackets of expressions, with their partners. -/
def bracketPairs : List (Char × Char) := [('(', ')'), ('[', ']')]

/-- Brackets and quotes have their partners, what stands in quotes is allowed there, and outside of quotes
no sign of a tag occurs. -/
inductive Balanced (allowed : String → Prop) : List Char → Prop where
  | nil : Balanced allowed []
  | plain {c : Char} {rest : List Char} (hc : isPlain c = true) (hrest : Balanced allowed rest) :
    Balanced allowed (c :: rest)
  | quoted {s : String} {rest : List Char} (hs : allowed s) (hrest : Balanced allowed rest) :
    Balanced allowed ((Literal.quote s).toList ++ rest)
  | brackets {pair : Char × Char} (hpair : pair ∈ bracketPairs) {inner rest : List Char}
    (hinner : Balanced allowed inner) (hrest : Balanced allowed rest) :
    Balanced allowed (pair.1 :: inner ++ pair.2 :: rest)

variable {allowed : String → Prop}

namespace Balanced

variable {xs ys : List Char}

theorem append (hxs : Balanced allowed xs) (hys : Balanced allowed ys) : Balanced allowed (xs ++ ys) := by
  induction hxs with
  | nil => exact hys
  | plain hc _ ih => exact plain hc ih
  | quoted hs _ ih =>
    rw [List.append_assoc]
    exact quoted hs ih
  | brackets hpair hinner _ _ ih =>
    rw [List.append_assoc, List.cons_append]
    exact brackets hpair hinner ih

theorem of_plain (h : ∀ c ∈ xs, isPlain c = true) : Balanced allowed xs := by
  induction xs with
  | nil => exact nil
  | cons c xs ih =>
    obtain ⟨hc, hxs⟩ := List.forall_mem_cons.mp h
    exact plain hc (ih hxs)

theorem bracketed (pair : Char × Char) (hpair : pair ∈ bracketPairs) (hxs : Balanced allowed xs) :
    Balanced allowed (pair.1 :: xs ++ [pair.2]) := brackets hpair hxs nil

/-- Texts that are balanced stay so when balanced separators join them. -/
theorem intercalate {separator : String} (hseparator : Balanced allowed separator.toList)
    {texts : List String} (h : ∀ text ∈ texts, Balanced allowed text.toList) :
    Balanced allowed (String.intercalate separator texts).toList := by
  rw [String.toList_intercalate]
  induction texts with
  | nil => exact nil
  | cons text rest ih =>
    obtain ⟨htext, hrest⟩ := List.forall_mem_cons.mp h
    cases rest with
    | nil => simpa using htext
    | cons next rest =>
      rw [List.map_cons, List.map_cons, List.intercalate_cons_cons]
      exact (htext.append hseparator).append (ih hrest)

end Balanced

/-! ## Quotes -/

/-- A character is written in quotes as itself, or behind a backslash as a sign of no delimiter. -/
theorem escape_eq (c : Char) :
    Literal.escape c = [c] ∧ c ≠ '"' ∧ c ≠ '\\' ∧ c ≠ '\n' ∨
      ∃ d ∈ ['"', '\\', 'n', 't'], Literal.escape c = ['\\', d] := by
  unfold Literal.escape
  split
  · exact .inr ⟨'"', by simp, rfl⟩
  · exact .inr ⟨'\\', by simp, rfl⟩
  · exact .inr ⟨'n', by simp, rfl⟩
  · exact .inr ⟨'t', by simp, rfl⟩
  · next hquote hbackslash hfeed _ => exact .inl ⟨rfl, hquote, hbackslash, hfeed⟩

/-- In quotes, signs of tags stand next to each other only when they did before. -/
theorem pair_infix_of_escape {a b : Char} (ha : a ∈ ['<', '>', '%']) (hb : b ∈ ['<', '>', '%'])
    {cs : List Char} (h : [a, b] <:+: cs.flatMap Literal.escape) : [a, b] <:+: cs := by
  have hne : ∀ sign ∈ ['<', '>', '%'], ∀ d ∈ ['"', '\\', 'n', 't'], sign ≠ d := by decide
  induction cs with
  | nil => exact h
  | cons c cs ih =>
    rw [List.flatMap_cons] at h
    rcases pair_infix_append h with h | h | ⟨hlast, hhead⟩
    · rcases escape_eq c with ⟨hc, -⟩ | ⟨d, hd, hc⟩
      · rw [hc] at h
        have := h.length_le
        simp at this
      · rw [hc] at h
        rcases pair_infix_cons h with ⟨heq, -⟩ | h
        · exact absurd heq.symm (hne a ha _ (by simp))
        · have := h.length_le
          simp at this
    · exact List.infix_cons (ih h)
    · rcases escape_eq c with ⟨hc, -⟩ | ⟨d, hd, hc⟩
      · rw [hc] at hlast
        cases hlast
        cases cs with
        | nil => cases hhead
        | cons d ds =>
          rcases escape_eq d with ⟨hd, -⟩ | ⟨e, -, hd⟩
          · rw [List.flatMap_cons, hd] at hhead
            cases hhead
            exact ⟨[], ds, rfl⟩
          · rw [List.flatMap_cons, hd] at hhead
            cases hhead
            exact absurd rfl (hne _ hb _ (by simp))
      · rw [hc] at hlast
        cases hlast
        exact absurd rfl (hne _ ha _ hd)

theorem toList_quote (s : String) :
    (Literal.quote s).toList = '"' :: (s.toList.flatMap Literal.escape ++ ['"']) := by
  rw [Literal.quote, String.toList_ofList, List.cons_append]

theorem Untagged.quote {s : String} (h : Untagged s.toList) :
    Untagged (Literal.quote s).toList := by
  have hquoted {a b : Char} (ha : a ∈ ['<', '>', '%']) (hb : b ∈ ['<', '>', '%'])
      (hs : ¬ [a, b] <:+: s.toList) : ¬ [a, b] <:+: (Literal.quote s).toList := by
    have hne : ∀ sign ∈ ['<', '>', '%'], sign ≠ '"' := by decide
    rw [toList_quote]
    intro hinfix
    rcases pair_infix_cons hinfix with ⟨heq, -⟩ | hinfix
    · exact hne a ha heq.symm
    rcases pair_infix_append hinfix with hinfix | hinfix | ⟨-, hhead⟩
    · exact hs (pair_infix_of_escape ha hb hinfix)
    · have := hinfix.length_le
      simp at this
    · cases hhead
      exact hne _ hb rfl
  exact ⟨hquoted (by simp) (by simp) h.1, hquoted (by simp) (by simp) h.2⟩

theorem lineFeed_not_mem_quote (s : String) : '\n' ∉ (Literal.quote s).toList := by
  rw [toList_quote]
  simp only [List.mem_cons, List.mem_append, List.mem_flatMap, List.not_mem_nil, or_false]
  rintro (heq | ⟨c, -, hc⟩ | heq)
  · cases heq
  · rcases escape_eq c with ⟨hescape, -, -, hne⟩ | ⟨d, hd, hescape⟩
    · rw [hescape, List.mem_singleton] at hc
      exact hne hc.symm
    · have hne : ∀ d ∈ ['"', '\\', 'n', 't'], '\n' ∉ ['\\', d] := by decide
      rw [hescape] at hc
      exact hne d hd hc
  · cases heq

theorem pair_infix_brackets {a b opener closer : Char} (ho : opener ≠ a) (hc : closer ≠ a)
    (hb : closer ≠ b) {inner rest : List Char} (h : [a, b] <:+: opener :: inner ++ closer :: rest) :
    [a, b] <:+: inner ∨ [a, b] <:+: rest := by
  rcases pair_infix_cons h with ⟨heq, -⟩ | h
  · exact absurd heq ho
  rcases pair_infix_append h with h | h | ⟨-, hhead⟩
  · exact .inl h
  · rcases pair_infix_cons h with ⟨heq, -⟩ | h
    · exact absurd heq hc
    · exact .inr h
  · exact absurd (Option.some.inj hhead) hb

namespace Balanced

variable {xs : List Char}

theorem head?_ne (h : Balanced allowed xs) {c : Char} (hc : c ∈ ['%', '\x7d']) : xs.head? ≠ some c := by
  have hplain : ∀ c ∈ ['%', '\x7d'], isPlain c = false := by decide
  have hne : ∀ c ∈ ['%', '\x7d'], c ≠ '"' ∧ ∀ pair ∈ bracketPairs, c ≠ pair.1 := by decide
  obtain ⟨hquote, hbrackets⟩ := hne c hc
  cases h with
  | nil => nofun
  | plain hown _ =>
    intro heq
    cases heq
    rw [hplain _ hc] at hown
    cases hown
  | quoted _ _ =>
    rw [toList_quote]
    exact fun heq => hquote (Option.some.inj heq).symm
  | brackets hpair _ _ => exact fun heq => hbrackets _ hpair (Option.some.inj heq).symm

/-- No delimiter of a tag stands in a balanced text. -/
theorem untagged (h : Balanced Tagless xs) : Untagged xs := by
  induction h with
  | nil => exact ⟨by decide, by decide⟩
  | plain hc hrest ih =>
    refine ⟨fun hinfix => ?_, fun hinfix => ?_⟩
    · rcases pair_infix_cons hinfix with ⟨-, hhead⟩ | hinfix
      · exact hrest.head?_ne (by simp) hhead
      · exact ih.1 hinfix
    · rcases pair_infix_cons hinfix with ⟨rfl, -⟩ | hinfix
      · revert hc
        decide
      · exact ih.2 hinfix
  | quoted hs hrest ih =>
    refine ⟨fun hinfix => ?_, fun hinfix => ?_⟩
    · rcases pair_infix_append hinfix with hinfix | hinfix | ⟨-, hhead⟩
      · exact (Untagged.quote hs).1 hinfix
      · exact ih.1 hinfix
      · exact hrest.head?_ne (by simp) hhead
    · rcases pair_infix_append hinfix with hinfix | hinfix | ⟨hlast, -⟩
      · exact (Untagged.quote hs).2 hinfix
      · exact ih.2 hinfix
      · rw [toList_quote, ← List.cons_append, List.getLast?_concat] at hlast
        cases hlast
  | brackets hpair _ _ ihinner ihrest =>
    have hne : ∀ pair ∈ bracketPairs, ∀ sign ∈ ['<', '>', '%'], pair.1 ≠ sign ∧ pair.2 ≠ sign := by
      decide
    have hne := hne _ hpair
    refine ⟨fun hinfix => ?_, fun hinfix => ?_⟩
    · rcases pair_infix_brackets (hne _ (by simp)).1 (hne _ (by simp)).2 (hne _ (by simp)).2 hinfix
        with hinfix | hinfix
      · exact ihinner.1 hinfix
      · exact ihrest.1 hinfix
    · rcases pair_infix_brackets (hne _ (by simp)).1 (hne _ (by simp)).2 (hne _ (by simp)).2 hinfix
        with hinfix | hinfix
      · exact ihinner.2 hinfix
      · exact ihrest.2 hinfix

/-- A balanced text holds no line feed. -/
theorem lineFeed_not_mem (h : Balanced allowed xs) : '\n' ∉ xs := by
  induction h with
  | nil => exact List.not_mem_nil
  | plain hc _ ih =>
    rintro (_ | ⟨_, hmem⟩)
    · revert hc
      decide
    · exact ih hmem
  | quoted _ _ ih =>
    intro hmem
    rcases List.mem_append.mp hmem with hmem | hmem
    · exact lineFeed_not_mem_quote _ hmem
    · exact ih hmem
  | brackets hpair _ _ ihinner ihrest =>
    have hne : ∀ pair ∈ bracketPairs, '\n' ≠ pair.1 ∧ '\n' ≠ pair.2 := by decide
    simp [ihinner, ihrest, hne _ hpair]

end Balanced

/-! ## Literals -/

/-- How numbers are written: digits and points behind an optional minus sign, or a word. -/
def IsNumeric (cs : List Char) : Prop :=
  ∃ body, (cs = body ∨ cs = '-' :: body) ∧
    (body = "NaN".toList ∨ body = "inf".toList ∨ ∀ c ∈ body, c.isDigit = true ∨ c = '.')

theorem isDigit_of_mem_digitChars {n : Nat} {c : Char} (h : c ∈ Number.digitChars n) :
    c.isDigit = true := Nat.isDigit_of_mem_toDigits (by decide) (by decide) h

theorem numeric_withPoint {digits : List Char} (h : ∀ c ∈ digits, c.isDigit = true) (places : Nat)
    {c : Char} (hc : c ∈ Number.withPoint digits places) : c.isDigit = true ∨ c = '.' := by
  have hpadded : ∀ d ∈ List.replicate (places + 1 - digits.length) '0' ++ digits,
      d.isDigit = true := by
    intro d hd
    rcases List.mem_append.mp hd with hd | hd
    · rw [(List.mem_replicate.mp hd).2]
      rfl
    · exact h d hd
  unfold Number.withPoint at hc
  dsimp only at hc
  split at hc
  · exact .inl (hpadded c (List.mem_of_mem_take hc))
  · rcases List.mem_append.mp hc with hc | hc
    · exact .inl (hpadded c (List.mem_of_mem_take hc))
    · rcases List.mem_cons.mp hc with rfl | hc
      · exact .inr rfl
      · exact .inl (hpadded c (List.mem_of_mem_drop hc))

theorem numeric_positional (d : Number.Decimal) {c : Char} (hc : c ∈ d.positional) :
    c.isDigit = true ∨ c = '.' := by
  have hdigits : ∀ c ∈ Number.dropZeros (Number.digitChars d.digits), c.isDigit = true := by
    intro c hc
    rw [Number.dropZeros, List.mem_reverse] at hc
    exact isDigit_of_mem_digitChars (List.mem_reverse.mp ((List.dropWhile_sublist _).subset hc))
  unfold Number.Decimal.positional at hc
  dsimp only at hc
  split at hc
  · rw [List.mem_singleton.mp hc]
    exact .inl rfl
  split at hc
  · rcases List.mem_append.mp hc with hc | hc
    · exact .inl (hdigits c hc)
    · rw [(List.mem_replicate.mp hc).2]
      exact .inl rfl
  · exact numeric_withPoint hdigits _ hc

theorem isNumeric_signed (negative : Bool) {cs : List Char} (h : ∀ c ∈ cs, c.isDigit = true ∨ c = '.') :
    IsNumeric (Number.signed negative cs).toList := by
  rw [Number.signed, String.toList_ofList]
  refine ⟨cs, ?_, .inr (.inr h)⟩
  cases negative with
  | false => exact .inl rfl
  | true => exact .inr rfl

theorem isNumeric_text {finite : Nat → Int → List Char}
    (h : ∀ mantissa exponent, ∀ c ∈ finite mantissa exponent, c.isDigit = true ∨ c = '.')
    (r : Number.Reading) : IsNumeric (r.text finite).toList := by
  cases r with
  | notANumber => exact ⟨_, .inl rfl, .inl rfl⟩
  | infinite negative =>
    cases negative with
    | false => exact ⟨_, .inl rfl, .inr (.inl rfl)⟩
    | true =>
      have hword : Number.Reading.text finite (.infinite true) = "-inf" := rfl
      exact ⟨"inf".toList, .inr (by rw [hword]; decide), .inr (.inl rfl)⟩
  | finite negative mantissa exponent => exact isNumeric_signed negative (h mantissa exponent)

theorem isNumeric_doubleText (x : Float) : IsNumeric (Literal.doubleText x).toList := by
  unfold Literal.doubleText
  split
  · exact isNumeric_text (fun _ _ _ hc =>
      numeric_withPoint (fun _ hd => isDigit_of_mem_digitChars hd) _ hc) _
  · exact isNumeric_text (fun _ _ _ hc => numeric_positional _ hc) _

theorem isNumeric_int (n : Int) : IsNumeric (toString n).toList := by
  have hdigits (m : Nat) : ∀ c ∈ m.repr.toList, c.isDigit = true ∨ c = '.' := by
    rw [Nat.toList_repr]
    exact fun c hc => .inl (isDigit_of_mem_digitChars hc)
  cases n with
  | ofNat m => exact ⟨_, .inl rfl, .inr (.inr (hdigits m))⟩
  | negSucc m =>
    refine ⟨_, .inr ?_, .inr (.inr (hdigits (m + 1)))⟩
    exact String.toList_append

/-- What a feature tag must not begin with: the keywords of blocks and the mark of a comment. -/
def keywords : List String := ["if", "for", "--"]

/-- Whether a text begins with no keyword. -/
def Harmless (cs : List Char) : Prop := ∀ word ∈ keywords, ¬ word.toList <+: cs

theorem isPrefix_of_append {word xs ys : List Char} (h : word <+: xs ++ ys)
    (hys : ∀ c, ys.head? = some c → c ∉ word) : word <+: xs := by
  rcases List.prefix_or_prefix_of_prefix h (List.prefix_append xs ys) with hword | ⟨tail, rfl⟩
  · exact hword
  · have htail : tail <+: ys := (List.prefix_append_right_inj xs).mp h
    cases tail with
    | nil => exact ⟨[], by simp⟩
    | cons c cs =>
      obtain ⟨more, rfl⟩ := htail
      exact absurd (by simp) (hys c rfl)

/-- What follows a harmless text does no harm when it begins with a sign. -/
theorem Harmless.append {xs ys : List Char} (h : Harmless xs)
    (hys : ∀ c, ys.head? = some c → c ∈ " .([%".toList) : Harmless (xs ++ ys) := by
  have hsigns : ∀ word ∈ keywords, ∀ c ∈ " .([%".toList, c ∉ word.toList := by decide
  exact fun word hword hprefix => h word hword
    (isPrefix_of_append hprefix fun c hc => hsigns word hword c (hys c hc))

theorem harmless_of_head {c : Char} {cs : List Char} (h : c ∉ ['i', 'f', '-']) :
    Harmless (c :: cs) := by
  intro word hword hprefix
  have hheads : ∀ word ∈ keywords, ∃ d ∈ ['i', 'f', '-'], ∃ ds, word.toList = d :: ds := by
    simp [keywords]
  obtain ⟨d, hd, ds, heq⟩ := hheads word hword
  rw [heq] at hprefix
  exact h ((List.cons_prefix_cons.mp hprefix).1 ▸ hd)

theorem harmless_append_of_length {xs : List Char} (h : Harmless xs) (hlength : 3 ≤ xs.length)
    (ys : List Char) : Harmless (xs ++ ys) := by
  have hwords : ∀ word ∈ keywords, word.toList.length ≤ 3 := by decide
  exact fun word hword hprefix => h word hword (List.prefix_of_prefix_length_le hprefix
    (List.prefix_append xs ys) (Nat.le_trans (hwords word hword) hlength))

theorem isPlain_of_isDigit {c : Char} (h : c.isDigit = true) : isPlain c = true := by
  have hnot : ∀ d ∈ delimiterChars, d.isDigit = false := by decide
  rw [isPlain, Bool.not_eq_true', ← Bool.not_eq_true, List.contains_iff_mem]
  intro hmem
  rw [hnot c hmem] at h
  cases h

namespace IsNumeric

variable {cs : List Char}

theorem mem (h : IsNumeric cs) {c : Char} (hc : c ∈ cs) : c.isDigit = true ∨ c ∈ "-.NaNinf".toList := by
  obtain ⟨body, hcs, hbody⟩ := h
  have hwords : (∀ d ∈ "NaN".toList, d ∈ "-.NaNinf".toList) ∧ ∀ d ∈ "inf".toList, d ∈ "-.NaNinf".toList := by
    decide
  have hplain : c ∈ body → c.isDigit = true ∨ c ∈ "-.NaNinf".toList := by
    intro hmem
    rcases hbody with rfl | rfl | hbody
    · exact .inr (hwords.1 c hmem)
    · exact .inr (hwords.2 c hmem)
    · rcases hbody c hmem with hdigit | rfl
      · exact .inl hdigit
      · exact .inr (by decide)
  rcases hcs with rfl | rfl
  · exact hplain hc
  · rcases List.mem_cons.mp hc with rfl | hc
    · exact .inr (by decide)
    · exact hplain hc

theorem isPlain (h : IsNumeric cs) : ∀ c ∈ cs, isPlain c = true := by
  have hwords : ∀ d ∈ "-.NaNinf".toList, Template.isPlain d = true := by decide
  intro c hc
  rcases h.mem hc with hdigit | hword
  · exact isPlain_of_isDigit hdigit
  · exact hwords c hword

theorem harmless (h : IsNumeric cs) : Harmless cs := by
  obtain ⟨body, hcs, hbody⟩ := h
  have hhead : ∀ c, body.head? = some c → c ≠ '-' := by
    rintro c hc rfl
    rcases hbody with rfl | rfl | hbody
    · cases hc
    · cases hc
    · rcases hbody '-' (List.mem_of_head? hc) with hdigit | heq
      · cases hdigit
      · cases heq
  rcases hcs with rfl | rfl
  · rcases hbody with rfl | rfl | hbody
    · exact harmless_of_head (by decide)
    · unfold Harmless
      decide
    · cases hcs : cs with
      | nil =>
        unfold Harmless
        decide
      | cons c rest =>
        refine harmless_of_head fun hmem => ?_
        have hnot : ∀ d ∈ ['i', 'f', '-'], ¬ (d.isDigit = true ∨ d = '.') := by decide
        exact hnot c hmem (hbody c (by simp [hcs]))
  · intro word hword hprefix
    simp only [keywords, List.mem_cons, List.not_mem_nil, or_false] at hword
    rcases hword with rfl | rfl | rfl
    · exact absurd (List.cons_prefix_cons.mp hprefix).1 (by decide)
    · exact absurd (List.cons_prefix_cons.mp hprefix).1 (by decide)
    · obtain ⟨more, rfl⟩ := (List.cons_prefix_cons.mp hprefix).2
      exact hhead '-' rfl rfl

end IsNumeric

/-! ## Expressions -/

namespace Expr

mutual

/-- Whether a property holds of an expression and of all expressions in it. -/
def All (p : Expr → Prop) : Expr → Prop
  | .literal value => p (.literal value)
  | .negation e => p (.negation e) ∧ All p e
  | .operation operator es => p (.operation operator es) ∧ AllOf p es
  | .parenthesis e => p (.parenthesis e) ∧ All p e
  | .call qualifier name f es => p (.call qualifier name f es) ∧ AllOfFilter p f ∧ AllOf p es
  | .chain es => p (.chain es) ∧ AllOf p es

def AllOf (p : Expr → Prop) : List Expr → Prop
  | [] => True
  | e :: es => All p e ∧ AllOf p es

def AllOfFilter (p : Expr → Prop) : Option Expr → Prop
  | none => True
  | some e => All p e

end

/-- A literal that holds no delimiter of a tag, a call whose name begins with no keyword of a block,
or an expression of another form. -/
def Tame : Expr → Prop
  | .literal (.text s) => Untagged s.toList
  | .call _ name _ _ => ¬ "if".toList <+: name.toList ∧ ¬ "for".toList <+: name.toList
  | _ => True

/-- A string literal with a content that is allowed, or an expression of another form. -/
def Quotes (allowed : String → Prop) : Expr → Prop
  | .literal (.text s) => allowed s
  | _ => True

/-- A call whose name begins with no keyword of a block, or an expression of another form. -/
def Unkeyed : Expr → Prop
  | .call _ name _ _ => ¬ "if".toList <+: name.toList ∧ ¬ "for".toList <+: name.toList
  | _ => True

mutual

theorem All.imp {p q : Expr → Prop} (hpq : ∀ e, p e → q e) {e : Expr} (h : e.All p) : e.All q := by
  match e with
  | .literal _ => exact hpq _ h
  | .negation e => exact ⟨hpq _ h.1, h.2.imp hpq⟩
  | .operation _ es => exact ⟨hpq _ h.1, AllOf.imp hpq h.2⟩
  | .parenthesis e => exact ⟨hpq _ h.1, h.2.imp hpq⟩
  | .call _ _ f es => exact ⟨hpq _ h.1, AllOfFilter.imp hpq h.2.1, AllOf.imp hpq h.2.2⟩
  | .chain es => exact ⟨hpq _ h.1, AllOf.imp hpq h.2⟩

theorem AllOf.imp {p q : Expr → Prop} (hpq : ∀ e, p e → q e) {es : List Expr} (h : AllOf p es) : AllOf q es := by
  match es with
  | [] => trivial
  | e :: es => exact ⟨h.1.imp hpq, AllOf.imp hpq h.2⟩

theorem AllOfFilter.imp {p q : Expr → Prop} (hpq : ∀ e, p e → q e) {f : Option Expr} (h : AllOfFilter p f) :
    AllOfFilter q f := by
  match f with
  | none => trivial
  | some e => exact All.imp hpq h

end

theorem quotes_of_tame {e : Expr} (h : e.Tame) : e.Quotes Tagless := by
  unfold Quotes
  split
  · exact h
  · trivial

theorem quotes_true {e : Expr} : e.Quotes fun _ => True := by
  unfold Quotes
  split <;> trivial

theorem unkeyed_of_tame {e : Expr} (h : e.Tame) : e.Unkeyed := by
  unfold Unkeyed
  split
  · exact h
  · trivial

/-- A call with a name, or an expression of another form. -/
def Named : Expr → Prop
  | .call _ name _ _ => IsName name
  | _ => True

theorem balanced_literal {value : Literal} (h : (Expr.literal value).Quotes allowed) :
    Balanced allowed value.write.toList := by
  cases value with
  | int value => exact .of_plain (isNumeric_int _).isPlain
  | double value => exact .of_plain (isNumeric_doubleText _).isPlain
  | text s =>
    rw [Literal.write, ← List.append_nil (Literal.quote s).toList]
    exact .quoted h .nil
  | bool value =>
    refine .of_plain ?_
    cases value <;> decide
  | null => exact .of_plain (by decide)

theorem harmless_literal (value : Literal) : Harmless value.write.toList := by
  cases value with
  | int value => exact (isNumeric_int _).harmless
  | double value => exact (isNumeric_doubleText _).harmless
  | text s =>
    rw [Literal.write, toList_quote]
    exact harmless_of_head (by decide)
  | bool value => cases value <;> (unfold Harmless; decide)
  | null =>
    unfold Harmless
    decide

theorem isNameChar_of_isName {name : String} (h : IsName name) :
    ∀ c ∈ name.toList, Input.isNameChar false c = true := by
  unfold IsName at h
  cases hname : name.toList with
  | nil => nofun
  | cons c rest =>
    rw [hname, Input.nameOf] at h
    split at h
    · next hfirst =>
      have hrest := (List.cons.inj h).2
      refine List.forall_mem_cons.mpr ⟨?_, fun d hd => ?_⟩
      · simp only [Input.isNameChar, Bool.not_true, Bool.false_and, Bool.or_false] at hfirst
        rw [Input.isNameChar, hfirst, Bool.true_or]
      · rw [← hrest] at hd
        exact List.all_eq_true.mp List.all_takeWhile d hd
    · cases h

theorem isPlain_of_isName {name : String} (h : IsName name) :
    ∀ c ∈ name.toList, isPlain c = true := by
  have hnot : ∀ d ∈ delimiterChars, Input.isNameChar false d = false := by decide
  intro c hc
  rw [isPlain, Bool.not_eq_true', ← Bool.not_eq_true, List.contains_iff_mem]
  intro hmem
  have hname := isNameChar_of_isName h c hc
  rw [hnot c hmem] at hname
  cases hname

theorem harmless_of_isName {name : String} (h : IsName name) (hif : ¬ "if".toList <+: name.toList)
    (hfor : ¬ "for".toList <+: name.toList) : Harmless name.toList := by
  intro word hword hprefix
  simp only [keywords, List.mem_cons, List.not_mem_nil, or_false] at hword
  rcases hword with rfl | rfl | rfl
  · exact hif hprefix
  · exact hfor hprefix
  · obtain ⟨more, hmore⟩ := hprefix
    have hname := isNameChar_of_isName h '-' (by rw [← hmore]; simp)
    revert hname
    decide

theorem balanced_symbol (operator : Operator) :
    Balanced allowed (" " ++ operator.symbol ++ " ").toList := by
  refine .of_plain ?_
  cases operator <;> decide

theorem head?_intercalate {separator : String} {d : Char} (hseparator : separator.toList.head? = some d)
    (text : String) (rest : List String) :
    ∃ tail, (String.intercalate separator (text :: rest)).toList = text.toList ++ tail ∧
      ∀ c, tail.head? = some c → c = d := by
  rw [String.toList_intercalate]
  cases rest with
  | nil => exact ⟨[], by simp, nofun⟩
  | cons next rest =>
    rw [List.map_cons, List.map_cons, List.intercalate_cons_cons]
    refine ⟨_, List.append_assoc .., ?_⟩
    intro c hc
    cases hlist : separator.toList with
    | nil =>
      rw [hlist] at hseparator
      cases hseparator
    | cons e es =>
      rw [hlist] at hseparator hc
      cases hseparator
      exact (Option.some.inj hc).symm

theorem harmless_intercalate {separator : String} {d : Char}
    (hseparator : separator.toList.head? = some d) (hd : d ∈ " .([%".toList) {texts : List String}
    (h : ∀ text ∈ texts, Harmless text.toList) :
    Harmless (String.intercalate separator texts).toList := by
  cases texts with
  | nil =>
    rw [String.intercalate_nil]
    unfold Harmless
    decide
  | cons text rest =>
    obtain ⟨tail, heq, htail⟩ := head?_intercalate hseparator text rest
    rw [heq]
    refine (h text (by simp)).append fun c hc => ?_
    rw [htail c hc]
    exact hd

theorem balanced_call {qualifier : Option Qualifier} {name : String} {args : List String}
    {filter : Option String} (hname : IsName name) (hargs : ∀ arg ∈ args, Balanced allowed arg.toList)
    (hfilter : ∀ f ∈ filter, Balanced allowed f.toList) :
    Balanced allowed (Tree.callText qualifier name args filter).toList := by
  unfold Tree.callText
  simp only [String.toList_append]
  refine (((?_ : Balanced allowed _).append (.of_plain (isPlain_of_isName hname))).append ?_).append ?_
  · rcases qualifier with _ | _ | _ | _ <;> exact .of_plain (by decide)
  · split
    · exact .nil
    · rw [String.toList_append, String.toList_append]
      exact (Balanced.intercalate (.of_plain (by decide)) hargs).bracketed ('(', ')') (by decide)
  · cases filter with
    | none => exact .nil
    | some f =>
      dsimp only
      rw [String.toList_append, String.toList_append]
      exact (hfilter f rfl).bracketed ('[', ']') (by decide)

theorem harmless_call {qualifier : Option Qualifier} {name : String} {args : List String}
    {filter : Option String} (hname : Harmless name.toList) :
    Harmless (Tree.callText qualifier name args filter).toList := by
  unfold Tree.callText
  simp only [String.toList_append, List.append_assoc]
  rcases qualifier with _ | q
  · refine hname.append fun c hc => ?_
    have hsign : c = '(' ∨ c = '[' := by
      cases args with
      | nil =>
        cases filter with
        | none => cases hc
        | some f =>
          simp only [List.isEmpty_nil, if_true, String.toList_append] at hc
          exact .inr (Option.some.inj hc).symm
      | cons arg args =>
        simp only [List.isEmpty_cons, Bool.false_eq_true, if_false, String.toList_append] at hc
        exact .inl (Option.some.inj hc).symm
    rcases hsign with rfl | rfl <;> decide
  · refine harmless_append_of_length ?_ ?_ _
    · cases q <;> (unfold Harmless; decide)
    · cases q <;> decide

mutual

/-- The text of an expression is balanced. -/
theorem balanced_write {e : Expr} (hnamed : e.All Named) (hquotes : e.All (Quotes allowed)) :
    Balanced allowed e.write.toList := by
  match e with
  | .literal value => exact balanced_literal hquotes
  | .negation e =>
    rw [Expr.write, String.toList_append]
    exact .plain (by decide) (balanced_write hnamed.2 hquotes.2)
  | .operation operator es =>
    exact .intercalate (balanced_symbol operator) (balanced_writeAll hnamed.2 hquotes.2)
  | .parenthesis e =>
    rw [Expr.write, String.toList_append, String.toList_append]
    exact (balanced_write hnamed.2 hquotes.2).bracketed ('(', ')') (by decide)
  | .call qualifier name f es =>
    exact balanced_call hnamed.1 (balanced_writeAll hnamed.2.2 hquotes.2.2)
      (balanced_writeFilter hnamed.2.1 hquotes.2.1)
  | .chain es => exact .intercalate (.of_plain (by decide)) (balanced_writeAll hnamed.2 hquotes.2)

theorem balanced_writeAll {es : List Expr} (hnamed : AllOf Named es) (hquotes : AllOf (Quotes allowed) es) :
    ∀ text ∈ Expr.writeAll es, Balanced allowed text.toList := by
  match es with
  | [] => nofun
  | e :: es =>
    rw [Expr.writeAll]
    exact List.forall_mem_cons.mpr
      ⟨balanced_write hnamed.1 hquotes.1, balanced_writeAll hnamed.2 hquotes.2⟩

theorem balanced_writeFilter {f : Option Expr} (hnamed : AllOfFilter Named f)
    (hquotes : AllOfFilter (Quotes allowed) f) : ∀ text ∈ Expr.writeFilter f, Balanced allowed text.toList := by
  match f with
  | none => nofun
  | some e =>
    rintro text ⟨⟩
    exact balanced_write hnamed hquotes

end

mutual

/-- The text of an expression begins with no keyword. -/
theorem harmless_write {e : Expr} (hnamed : e.All Named) (hunkeyed : e.All Unkeyed) :
    Harmless e.write.toList := by
  match e with
  | .literal value => exact harmless_literal value
  | .negation e =>
    rw [Expr.write, String.toList_append]
    exact harmless_of_head (by decide)
  | .operation operator es =>
    exact harmless_intercalate (d := ' ') (by simp) (by decide) (harmless_writeAll hnamed.2 hunkeyed.2)
  | .parenthesis e =>
    rw [Expr.write, String.toList_append, String.toList_append]
    exact harmless_of_head (by decide)
  | .call qualifier name f es =>
    exact harmless_call (harmless_of_isName hnamed.1 hunkeyed.1.1 hunkeyed.1.2)
  | .chain es =>
    exact harmless_intercalate (d := '.') (by decide) (by decide) (harmless_writeAll hnamed.2 hunkeyed.2)

theorem harmless_writeAll {es : List Expr} (hnamed : AllOf Named es) (hunkeyed : AllOf Unkeyed es) :
    ∀ text ∈ Expr.writeAll es, Harmless text.toList := by
  match es with
  | [] => nofun
  | e :: es =>
    rw [Expr.writeAll]
    exact List.forall_mem_cons.mpr
      ⟨harmless_write hnamed.1 hunkeyed.1, harmless_writeAll hnamed.2 hunkeyed.2⟩

end

mutual

/-- The calls of an expression that a well sorted tree shows have names. -/
theorem named_of_showsExpr {t : Tree} (ht : t.WellSorted) {e : Expr} {id : NodeId}
    (h : t.ShowsExpr e id) : e.All Named := by
  match e with
  | .literal value => trivial
  | .negation e =>
    obtain ⟨i, -, -, he⟩ := h
    exact ⟨trivial, named_of_showsExpr ht he⟩
  | .operation operator es =>
    obtain ⟨is, -, hes⟩ := h
    exact ⟨trivial, named_of_showsExprs ht hes⟩
  | .parenthesis e =>
    obtain ⟨i, -, -, he⟩ := h
    exact ⟨trivial, named_of_showsExpr ht he⟩
  | .call qualifier name f es =>
    obtain ⟨g, is, hkind, hf, hes⟩ := h
    exact ⟨ht.named id _ hkind, named_of_showsFilter ht hf, named_of_showsExprs ht hes⟩
  | .chain es =>
    obtain ⟨is, -, hes⟩ := h
    exact ⟨trivial, named_of_showsExprs ht hes⟩

theorem named_of_showsExprs {t : Tree} (ht : t.WellSorted) {es : List Expr} {is : List NodeId}
    {bound : NodeId} (h : t.ShowsExprs es is bound) : AllOf Named es := by
  match es with
  | [] => trivial
  | e :: es =>
    obtain ⟨i, -, js, -, he, hes⟩ := h
    exact ⟨named_of_showsExpr ht he, named_of_showsExprs ht hes⟩

theorem named_of_showsFilter {t : Tree} (ht : t.WellSorted) {f : Option Expr}
    {g : Option NodeId} {bound : NodeId} (h : t.ShowsFilter f g bound) : AllOfFilter Named f := by
  match f with
  | none => trivial
  | some e =>
    obtain ⟨i, -, -, he⟩ := h
    exact named_of_showsExpr ht he

end

end Expr

end ModelText.Template
