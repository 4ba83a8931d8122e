import ModelText.Proofs.Source.Walk
import ModelText.Proofs.Template.Matched

/-!
# Searches in the text of an expression

A search that skips string literals leaves a balanced text behind it, and one that skips brackets as
well leaves a whole pair of brackets behind it in one step.
-/

namespace ModelText.Template

open Source
open Text (byteCount)

variable {src : Source} {offset stop : Nat} {xs rest : List Char}

/-! ## String literals -/

theorem byte?_ne_backslash {c : Char} (h : src.From offset (c :: rest)) (hc : c ≠ '\\') {k : Nat}
    (hk : k < c.utf8Size) : src.byte? (offset + k) ≠ some 0x5C := by
  have hprefix : ¬ "\\".toList <+: c :: rest := by
    intro hprefix
    exact hc (List.cons_prefix_cons.mp hprefix).1.symm
  have hfalse : src.tokenAt (offset + k) "\\" (offset + k + 1) = false :=
    h.tokenAt_eq_false hprefix hk
  have hbytes : tokenBytes "\\" = [0x5C] := by decide
  intro hbyte
  simp [tokenAt, hbytes, holds, hbyte] at hfalse

/-- The quote that closes a string literal is found. -/
theorem quoteEnd_quotable (hstop : stop ≤ src.size) {content : List Char} (hcontent : Quotable content)
    (h : src.From offset (content ++ '"' :: rest)) (hle : offset + byteCount content + 1 ≤ stop) :
    src.quoteEnd "\"" stop offset =
      some ⟨offset + byteCount content, offset + byteCount content + 1⟩ := by
  have hbehind {c : Char} {tail : List Char} (hc : c ≠ '"') : ¬ "\"".toList <+: c :: tail :=
    fun hprefix => hc (List.cons_prefix_cons.mp hprefix).1.symm
  induction hcontent generalizing offset with
  | nil =>
    have hstands := (h.tokenAt_iff "\"" stop).mpr ⟨by decide, hle, ⟨rest, rfl⟩⟩
    exact quoteEnd_found (byte?_ne_backslash h (by decide) (k := 0) (by decide)) hstands
  | @plain c content hquote hbackslash _ ih =>
    rw [byteCount] at hle
    rw [byteCount, ← Nat.add_assoc, ← ih h.tail (by omega)]
    refine eq_of_steps _ fun k hk => quoteEnd_visible hstop ?_ ?_
    · exact byte?_ne_backslash h hbackslash hk
    · exact h.tokenAt_eq_false (hbehind hquote) hk
  | @hidden c content _ ih =>
    have hsize : '\\'.utf8Size = 1 := by decide
    have hpos := c.utf8Size_pos
    have hbyte : src.byte? offset = some 0x5C := h.byte? 0
    have hnext : src.From (offset + 1) (c :: (content ++ '"' :: rest)) := h.tail
    rw [byteCount, byteCount, hsize] at hle
    have hcount : offset + byteCount ('\\' :: c :: content) = offset + 1 + c.utf8Size + byteCount content := by
      rw [byteCount, byteCount, hsize]
      omega
    rw [hcount, ← ih hnext.tail (by omega), quoteEnd_escaped hstop hbyte]
    -- The bytes behind the first one of the hidden character are no signs of anything.
    have hwidth : offset + 1 + c.utf8Size = offset + 2 + (c.utf8Size - 1) := by omega
    rw [hwidth]
    refine eq_of_steps _ fun k hk => ?_
    have hinside : offset + 2 + k = offset + 1 + (k + 1) := by omega
    have hwide : k + 1 < c.utf8Size := by omega
    have hne {d : Char} (hd : d.utf8Size = 1) : c ≠ d := by
      rintro rfl
      omega
    rw [← Nat.add_assoc, hinside]
    exact quoteEnd_visible hstop (byte?_ne_backslash hnext (hne (by decide)) hwide)
      (hnext.tokenAt_eq_false (hbehind (hne (by decide))) hwide)

theorem byteCount_quoted (content rest : List Char) :
    byteCount ('"' :: content ++ '"' :: rest) = byteCount content + 2 + byteCount rest := by
  have hsize : '"'.utf8Size = 1 := by decide
  rw [Text.byteCount_append, byteCount, byteCount, hsize]
  omega

theorem from_behind_quoted {content : List Char} (h : src.From offset ('"' :: content ++ '"' :: rest)) :
    src.From (offset + byteCount content + 2) rest := by
  have hinner : src.From (offset + 1) (content ++ '"' :: rest) := h.tail
  have hbehind : src.From (offset + 1 + byteCount content + 1) rest := hinner.drop.tail
  have hnext : offset + 1 + byteCount content + 1 = offset + byteCount content + 2 := by omega
  rwa [hnext] at hbehind

/-- A string literal is skipped as a whole. -/
theorem skipInhibited_quotable (hstop : stop ≤ src.size) {content : List Char} (hcontent : Quotable content)
    {others : List Inhibitor} (h : src.From offset ('"' :: content ++ '"' :: rest))
    (hle : offset + byteCount content + 2 ≤ stop) :
    src.skipInhibited (.literal :: others) stop offset = .resume (offset + byteCount content + 2) := by
  have hopener : Inhibitor.literal.opener.utf8ByteSize = 1 := by decide
  have hinhibitor : src.inhibitorAt ([] ++ .literal :: others) offset stop = some .literal :=
    h.inhibitorAt_eq [] ⟨_, rfl⟩ (by decide) (by omega) nofun
  have hinner : src.From (offset + 1) (content ++ '"' :: rest) := h.tail
  rw [List.nil_append] at hinhibitor
  rw [skipInhibited_quoted hinhibitor rfl, hopener]
  have hend := quoteEnd_quotable hstop hcontent hinner (by omega)
  have hcloser : Inhibitor.literal.closer = "\"" := rfl
  rw [hcloser, hend]
  simp only [Skip.ofEnd, Skip.resume.injEq]
  omega

theorem byteCount_quote (s : String) :
    byteCount (Literal.quote s).toList = byteCount (s.toList.flatMap Literal.escape) + 2 := by
  rw [toList_quote, byteCount, Text.byteCount_append]
  have hquote : byteCount ['"'] = 1 := by decide
  have hsize : Char.utf8Size '"' = 1 := by decide
  omega

/-- A string literal as it is written is skipped as a whole. -/
theorem skipInhibited_quote (hstop : stop ≤ src.size) {s : String} {others : List Inhibitor}
    (h : src.From offset ((Literal.quote s).toList ++ rest))
    (hle : offset + byteCount (Literal.quote s).toList ≤ stop) :
    src.skipInhibited (.literal :: others) stop offset =
      .resume (offset + byteCount (Literal.quote s).toList) := by
  rw [byteCount_quote] at hle ⊢
  rw [toList_quote, List.cons_append, List.append_assoc, List.singleton_append] at h
  exact skipInhibited_quotable hstop (quotable_escape _) h hle

/-! ## Balanced texts -/

/-- A token that begins with another character does not begin at this one. -/
theorem not_prefix_of_head {token : String} {c : Char}
    (h : token.toList ≠ [] ∧ token.toList.head? ≠ some c) : ¬ token.toList <+: c :: rest := by
  intro hprefix
  cases heq : token.toList with
  | nil => exact h.1 heq
  | cons d ds =>
    rw [heq] at hprefix h
    exact h.2 (congrArg some (List.cons_prefix_cons.mp hprefix).1)

theorem not_prefix_of_ne {token : String} {c d : Char} (hd : token.toList.head? = some d) (hne : d ≠ c) :
    ¬ token.toList <+: c :: rest := by
  refine not_prefix_of_head ⟨fun heq => ?_, fun heq => ?_⟩
  · rw [heq] at hd
    cases hd
  · rw [hd] at heq
    exact hne (Option.some.inj heq)

/-- No token that begins with a character of a list begins at another one. -/
theorem not_prefix_of_not_mem {token : String} {c : Char} {heads : List Char} (hc : c ∉ heads)
    (h : ∃ d ∈ heads, token.toList.head? = some d) : ¬ token.toList <+: c :: rest := by
  obtain ⟨d, hd, hhead⟩ := h
  exact not_prefix_of_ne hhead fun heq => hc (heq ▸ hd)

/-- No token that begins with a sign of a delimiter begins at a plain character. -/
theorem not_prefix_of_isPlain {token : String} {c : Char} (hc : isPlain c = true)
    (h : ∃ d ∈ delimiterChars, token.toList.head? = some d) : ¬ token.toList <+: c :: rest := by
  refine not_prefix_of_not_mem (fun hmem => ?_) h
  rw [isPlain, Bool.not_eq_true', ← Bool.not_eq_true, List.contains_iff_mem] at hc
  exact hc hmem

/-- The search for the end of a tag leaves a balanced text behind it. -/
theorem seek_inTag (hstop : stop ≤ src.size) {allowed : String → Prop} {xs : List Char} (hxs : Balanced allowed xs)
    (h : src.From offset (xs ++ rest)) (hle : offset + byteCount xs ≤ stop) :
    src.seek ["%>"] [.literal] stop offset =
      src.seek ["%>"] [.literal] stop (offset + byteCount xs) := by
  have hbracket {c : Char} (hc : c ∈ ['(', ')', '[', ']']) {offset : Nat} {rest : List Char}
      (h : src.From offset (c :: rest)) :
      src.seek ["%>"] [.literal] stop offset = src.seek ["%>"] [.literal] stop (offset + 1) := by
    have hheads : ∀ c ∈ ['(', ')', '[', ']'], c.utf8Size = 1 ∧
        ∀ token ∈ ["%>"] ++ [Inhibitor.literal].map (·.opener),
          token.toList ≠ [] ∧ token.toList.head? ≠ some c := by decide
    obtain ⟨hsize, hheads⟩ := hheads c hc
    rw [h.seek_char hstop fun token htoken => not_prefix_of_head (hheads token htoken), hsize]
  induction hxs generalizing offset rest with
  | nil => rfl
  | plain hc _ ih =>
    have hheads : ∀ token ∈ ["%>"] ++ [Inhibitor.literal].map (·.opener),
        ∃ d ∈ delimiterChars, token.toList.head? = some d := by decide
    rw [byteCount] at hle ⊢
    rw [h.seek_char hstop fun token htoken => not_prefix_of_isPlain hc (hheads token htoken),
      ih h.tail (by omega), Nat.add_assoc]
  | @quoted s xs _ _ ih =>
    rw [List.append_assoc] at h
    rw [Text.byteCount_append] at hle ⊢
    have hskip := @skipInhibited_quote _ _ _ _ hstop s [] h (by omega)
    have hlt : offset < stop := by
      have := byteCount_quote s
      omega
    rw [seek_resume hstop ?_ hskip hlt, ih h.drop (by omega), Nat.add_assoc]
    rw [toList_quote] at h
    exact firstTokenAt_eq_none fun token htoken => h.tokenAt_eq_false (k := 0)
      (not_prefix_of_head (by revert token; decide)) (by decide)
  | @brackets pair hpair inner xs _ _ ihinner ihrest =>
    have hchars : ∀ pair ∈ bracketPairs, pair.1 ∈ ['(', ')', '[', ']'] ∧
        pair.2 ∈ ['(', ')', '[', ']'] ∧ pair.1.utf8Size = 1 ∧ pair.2.utf8Size = 1 := by decide
    obtain ⟨hopener, hcloser, hsize, hsize'⟩ := hchars pair hpair
    rw [List.append_assoc] at h
    rw [Text.byteCount_append, byteCount, byteCount, hsize, hsize'] at hle ⊢
    have hinner : src.From (offset + 1) (inner ++ pair.2 :: (xs ++ rest)) := hsize ▸ h.tail
    have hrest : src.From (offset + 1 + byteCount inner + 1) (xs ++ rest) :=
      hsize' ▸ hinner.drop.tail
    rw [hbracket hopener h, ihinner hinner (by omega), hbracket hcloser hinner.drop,
      ihrest hrest (by omega)]
    congr 1
    omega

/-! ## Matching brackets -/

/-- The region between two brackets. -/
def bracketOf (pair : Char × Char) : Inhibitor :=
  ⟨String.ofList [pair.1], String.ofList [pair.2], .nested⟩

theorem utf8ByteSize_bracket {pair : Char × Char} (hpair : pair ∈ bracketPairs) :
    (bracketOf pair).opener.utf8ByteSize = 1 ∧ (bracketOf pair).closer.utf8ByteSize = 1 := by
  revert pair
  decide

theorem tokenAt_char {token : String} {c : Char} (htoken : token.toList = [c])
    (h : src.From offset (c :: rest)) (hle : offset + token.utf8ByteSize ≤ stop) :
    src.tokenAt offset token stop = true := by
  refine (h.tokenAt_iff token stop).mpr ⟨?_, hle, ?_⟩
  · rw [htoken]
    nofun
  · rw [htoken]
    exact ⟨rest, rfl⟩

/-- The search for the partner of a bracket leaves a text behind it, whatever bracket it is. -/
def PassesBrackets (src : Source) (tags : Tags) (stop : Nat) (xs : List Char) : Prop :=
  ∀ pair ∈ bracketPairs, ∀ {offset : Nat} {rest : List Char}, src.From offset (xs ++ rest) →
    offset + byteCount xs ≤ stop → ∀ depth,
      src.closing (bracketOf pair).opener (bracketOf pair).closer tags.inExpression stop depth offset =
        src.closing (bracketOf pair).opener (bracketOf pair).closer tags.inExpression stop depth
          (offset + byteCount xs)

section Brackets

variable {tags : Tags} (hstop : stop ≤ src.size)

theorem inhibitorAt_bracket {pair : Char × Char} (hpair : pair ∈ bracketPairs)
    (h : src.From offset (pair.1 :: rest)) (hlt : offset < stop) :
    src.inhibitorAt tags.inExpression offset stop = some (bracketOf pair) := by
  obtain ⟨before, after, heq, hbefore⟩ : ∃ before after,
      tags.inExpression = before ++ bracketOf pair :: after ∧
        ∀ j ∈ before, j.opener.toList ≠ [] ∧ j.opener.toList.head? ≠ some pair.1 := by
    simp only [bracketPairs, List.mem_cons, List.not_mem_nil, or_false] at hpair
    rcases hpair with rfl | rfl
    · exact ⟨[.literal], [bracketOf ('[', ']')], rfl, by decide⟩
    · exact ⟨[.literal, bracketOf ('(', ')')], [], rfl, by decide⟩
  have hopener : (bracketOf pair).opener.toList = [pair.1] := String.toList_ofList ..
  have hsize := (utf8ByteSize_bracket hpair).1
  rw [heq]
  refine h.inhibitorAt_eq before ?_ ?_ (by omega) fun j hj => not_prefix_of_head (hbefore j hj)
  · rw [hopener]
    exact ⟨rest, rfl⟩
  · rw [hopener]
    nofun

include hstop

/-- A pair of brackets is skipped as a whole. -/
theorem skipInhibited_brackets {pair : Char × Char} (hpair : pair ∈ bracketPairs)
    {inner : List Char} (hinner : PassesBrackets src tags stop inner)
    (h : src.From offset (pair.1 :: inner ++ pair.2 :: rest))
    (hle : offset + byteCount inner + 2 ≤ stop) :
    src.skipInhibited tags.inExpression stop offset = .resume (offset + byteCount inner + 2) := by
  have hchars : ∀ pair ∈ bracketPairs, pair.1.utf8Size = 1 ∧ pair.2.utf8Size = 1 := by decide
  obtain ⟨hsize, hsize'⟩ := hchars pair hpair
  obtain ⟨hopener, hcloser⟩ := utf8ByteSize_bracket hpair
  have hinside : src.From (offset + 1) (inner ++ pair.2 :: rest) := hsize ▸ h.tail
  have hstands : src.tokenAt (offset + 1 + byteCount inner) (bracketOf pair).closer stop = true :=
    tokenAt_char (String.toList_ofList ..) hinside.drop (by omega)
  rw [skipInhibited_nested hstop (inhibitorAt_bracket hpair h (by omega)) rfl, hopener,
    hinner pair hpair hinside (by omega), closing_found hstands, hcloser]
  simp only [Skip.ofEnd, Skip.resume.injEq]
  omega

/-- The search for the partner of a bracket leaves a matched text behind it. -/
theorem passesBrackets {p : Char → Bool} (hxs : Matched p xs) : PassesBrackets src tags stop xs := by
  induction hxs with
  | nil => exact fun _ _ _ _ _ _ _ => rfl
  | @plain p c xs hc _ _ ih =>
    intro pair hpair offset rest h hle depth
    have hheads : ∀ pair ∈ bracketPairs, ∀ token ∈ [(bracketOf pair).closer, (bracketOf pair).opener] ++
        (Inhibitor.literal :: bracketPairs.map bracketOf).map (·.opener),
        ∃ d ∈ bracketChars, token.toList.head? = some d := by decide
    have hsilent : ∀ token ∈ [(bracketOf pair).closer, (bracketOf pair).opener] ++
        tags.inExpression.map (·.opener), ¬ token.toList <+: c :: (xs ++ rest) := fun token htoken =>
      not_prefix_of_not_mem hc (hheads pair hpair token htoken)
    rw [byteCount] at hle ⊢
    rw [h.closing_char hstop hsilent, ih pair hpair h.tail (by omega), Nat.add_assoc]
  | @quoted p content xs hcontent _ ih =>
    intro pair hpair offset rest h hle depth
    rw [List.append_assoc] at h
    rw [byteCount_quoted] at hle ⊢
    have hbehind : src.From (offset + byteCount content + 2) (xs ++ rest) := from_behind_quoted h
    have hskip : src.skipInhibited tags.inExpression stop offset = .resume (offset + byteCount content + 2) :=
      skipInhibited_quotable hstop hcontent h (by omega)
    have hquote : ∀ pair ∈ bracketPairs, ∀ token ∈ [(bracketOf pair).closer, (bracketOf pair).opener],
        token.toList ≠ [] ∧ token.toList.head? ≠ some '"' := by decide
    have hfalse : ∀ token ∈ [(bracketOf pair).closer, (bracketOf pair).opener],
        src.tokenAt offset token stop = false := by
      intro token htoken
      exact h.tokenAt_eq_false (k := 0) (not_prefix_of_head (hquote pair hpair token htoken))
        (by decide)
    obtain ⟨hcloser, hopener, -⟩ := by simpa only [List.forall_mem_cons] using hfalse
    rw [closing_resume hstop hcloser hopener hskip (by omega), ih pair hpair hbehind (by omega)]
    congr 1
    omega
  | @brackets p own hown inner xs _ _ ihinner ihrest =>
    intro pair hpair offset rest h hle depth
    have hchars : ∀ pair ∈ bracketPairs, pair.1.utf8Size = 1 ∧ pair.2.utf8Size = 1 := by decide
    obtain ⟨hsize, hsize'⟩ := hchars own hown
    obtain ⟨hopener, hcloser⟩ := utf8ByteSize_bracket hown
    have hother : ∀ pair ∈ bracketPairs, ∀ own ∈ bracketPairs, pair.2 ≠ own.1 ∧
        (pair ≠ own → pair.1 ≠ own.1) := by decide
    obtain ⟨hcloserNe, hopenerNe⟩ := hother pair hpair own hown
    rw [List.append_assoc] at h
    rw [Text.byteCount_append, byteCount, byteCount, hsize, hsize'] at hle ⊢
    have hinside : src.From (offset + 1) (inner ++ own.2 :: (xs ++ rest)) := hsize ▸ h.tail
    have hbehind : src.From (offset + 1 + byteCount inner + 1) (xs ++ rest) :=
      hsize' ▸ hinside.drop.tail
    have hnotCloser : src.tokenAt offset (bracketOf pair).closer stop = false := by
      refine h.tokenAt_eq_false (k := 0) ?_ own.1.utf8Size_pos
      rw [show (bracketOf pair).closer.toList = [pair.2] from String.toList_ofList ..]
      exact fun hprefix => hcloserNe (List.cons_prefix_cons.mp hprefix).1
    by_cases hsame : pair = own
    · subst hsame
      have hstands : src.tokenAt offset (bracketOf pair).opener stop = true :=
        tokenAt_char (String.toList_ofList ..) h (by omega)
      have hstands' : src.tokenAt (offset + 1 + byteCount inner) (bracketOf pair).closer stop = true :=
        tokenAt_char (String.toList_ofList ..) hinside.drop (by omega)
      rw [closing_opener hstop hnotCloser hstands, hopener, ihinner pair hpair hinside (by omega),
        closing_closer hstop hstands', hcloser, ihrest pair hpair hbehind (by omega)]
      congr 1
      omega
    · have hnotOpener : src.tokenAt offset (bracketOf pair).opener stop = false := by
        refine h.tokenAt_eq_false (k := 0) ?_ own.1.utf8Size_pos
        rw [show (bracketOf pair).opener.toList = [pair.1] from String.toList_ofList ..]
        exact fun hprefix => hopenerNe hsame (List.cons_prefix_cons.mp hprefix).1
      have hskip := skipInhibited_brackets hstop hown ihinner h (by omega)
      have hnext : offset + byteCount inner + 2 = offset + 1 + byteCount inner + 1 := by omega
      rw [closing_resume hstop hnotCloser hnotOpener hskip (by omega), hnext,
        ihrest pair hpair hbehind (by omega)]
      congr 1
      omega

end Brackets

/-! ## Brackets between string literals -/

/-- Looking at string literals only, the search for the partner of a bracket leaves a matched text behind it
as well. -/
theorem closing_inTag (hstop : stop ≤ src.size) {p : Char → Bool} (hxs : Matched p xs) {pair : Char × Char}
    (hpair : pair ∈ bracketPairs) (h : src.From offset (xs ++ rest)) (hle : offset + byteCount xs ≤ stop)
    (depth : Nat) :
    src.closing (bracketOf pair).opener (bracketOf pair).closer [.literal] stop depth offset =
      src.closing (bracketOf pair).opener (bracketOf pair).closer [.literal] stop depth
        (offset + byteCount xs) := by
  induction hxs generalizing offset rest depth with
  | nil => rfl
  | @plain p c xs hc _ _ ih =>
    have hheads : ∀ pair ∈ bracketPairs, ∀ token ∈ [(bracketOf pair).closer, (bracketOf pair).opener] ++
        [Inhibitor.literal].map (·.opener), ∃ d ∈ bracketChars, token.toList.head? = some d := by decide
    rw [byteCount] at hle ⊢
    rw [h.closing_char hstop fun token htoken => not_prefix_of_not_mem hc (hheads pair hpair token htoken),
      ih h.tail (by omega), Nat.add_assoc]
  | @quoted p content xs hcontent _ ih =>
    rw [List.append_assoc] at h
    rw [byteCount_quoted] at hle ⊢
    have hbehind : src.From (offset + byteCount content + 2) (xs ++ rest) := from_behind_quoted h
    have hskip : src.skipInhibited [.literal] stop offset = .resume (offset + byteCount content + 2) :=
      skipInhibited_quotable hstop hcontent h (by omega)
    have hquote : ∀ pair ∈ bracketPairs, ∀ token ∈ [(bracketOf pair).closer, (bracketOf pair).opener],
        token.toList ≠ [] ∧ token.toList.head? ≠ some '"' := by decide
    have hfalse : ∀ token ∈ [(bracketOf pair).closer, (bracketOf pair).opener],
        src.tokenAt offset token stop = false := by
      intro token htoken
      exact h.tokenAt_eq_false (k := 0) (not_prefix_of_head (hquote pair hpair token htoken)) (by decide)
    rw [closing_resume hstop (hfalse _ (by simp)) (hfalse _ (by simp)) hskip (by omega), ih hbehind (by omega)]
    congr 1
    omega
  | @brackets p own hown inner xs _ _ ihinner ihrest =>
    have hchars : ∀ pair ∈ bracketPairs, pair.1.utf8Size = 1 ∧ pair.2.utf8Size = 1 := by decide
    obtain ⟨hsize, hsize'⟩ := hchars own hown
    rw [List.append_assoc] at h
    rw [Text.byteCount_append, byteCount, byteCount, hsize, hsize'] at hle ⊢
    have hinside : src.From (offset + 1) (inner ++ own.2 :: (xs ++ rest)) := hsize ▸ h.tail
    have hbehind : src.From (offset + 1 + byteCount inner + 1) (xs ++ rest) :=
      hsize' ▸ hinside.drop.tail
    by_cases hsame : pair = own
    · subst hsame
      obtain ⟨hopener, hcloser⟩ := utf8ByteSize_bracket hpair
      have hdiffer : ∀ pair ∈ bracketPairs, (bracketOf pair).closer.toList ≠ [] ∧
          (bracketOf pair).closer.toList.head? ≠ some pair.1 := by decide
      have hnot : src.tokenAt offset (bracketOf pair).closer stop = false :=
        h.tokenAt_eq_false (k := 0) (not_prefix_of_head (hdiffer pair hpair)) pair.1.utf8Size_pos
      have hopens : src.tokenAt offset (bracketOf pair).opener stop = true :=
        tokenAt_char (String.toList_ofList ..) h (by omega)
      have hcloses : src.tokenAt (offset + 1 + byteCount inner) (bracketOf pair).closer stop = true :=
        tokenAt_char (String.toList_ofList ..) hinside.drop (by omega)
      rw [closing_opener hstop hnot hopens, hopener, ihinner hinside (by omega),
        closing_closer hstop hcloses, hcloser, ihrest hbehind (by omega)]
      congr 1
      omega
    · -- The brackets are of the other kind and may as well be plain characters.
      have hheads : ∀ pair ∈ bracketPairs, ∀ own ∈ bracketPairs, pair ≠ own → ∀ c ∈ [own.1, own.2],
          ∀ token ∈ [(bracketOf pair).closer, (bracketOf pair).opener] ++ [Inhibitor.literal].map (·.opener),
            token.toList ≠ [] ∧ token.toList.head? ≠ some c := by decide
      have hheads := hheads pair hpair own hown hsame
      rw [h.closing_char hstop fun token htoken => not_prefix_of_head (hheads own.1 (by simp) token htoken),
        hsize, ihinner hinside (by omega),
        hinside.drop.closing_char hstop fun token htoken =>
          not_prefix_of_head (hheads own.2 (by simp) token htoken),
        hsize', ihrest hbehind (by omega)]
      congr 1
      omega

/-! ## Visible tokens -/

/-- A search leaves a matched text behind it in whose visible characters none of its tokens begins. -/
theorem seek_matched {tags : Tags} (hstop : stop ≤ src.size) {p : Char → Bool} (hxs : Matched p xs)
    {tokens : List String}
    (htokens : ∀ token ∈ tokens, ∃ d, token.toList.head? = some d ∧ p d = false ∧ d ∉ bracketChars)
    (h : src.From offset (xs ++ rest)) (hle : offset + byteCount xs ≤ stop) :
    src.seek tokens tags.inExpression stop offset =
      src.seek tokens tags.inExpression stop (offset + byteCount xs) := by
  have hnone {c : Char} (hc : c ∈ bracketChars) {offset : Nat} {rest : List Char}
      (h : src.From offset (c :: rest)) : src.firstTokenAt offset stop tokens = none := by
    refine firstTokenAt_eq_none fun token htoken => h.tokenAt_eq_false (k := 0) ?_ c.utf8Size_pos
    obtain ⟨d, hd, -, hne⟩ := htokens token htoken
    exact not_prefix_of_ne hd fun heq => hne (heq ▸ hc)
  induction hxs generalizing offset rest with
  | nil => rfl
  | @plain p c xs hc hp _ ih =>
    have hinhibitors : ∀ token ∈ tags.inExpression.map (·.opener),
        ∃ d ∈ bracketChars, token.toList.head? = some d := by
      have hheads : ∀ token ∈ (Inhibitor.literal :: bracketPairs.map bracketOf).map (·.opener),
          ∃ d ∈ bracketChars, token.toList.head? = some d := by decide
      exact hheads
    have hsilent : ∀ token ∈ tokens ++ tags.inExpression.map (·.opener),
        ¬ token.toList <+: c :: (xs ++ rest) := by
      intro token htoken
      rcases List.mem_append.mp htoken with htoken | htoken
      · obtain ⟨d, hd, hpd, -⟩ := htokens token htoken
        refine not_prefix_of_ne hd ?_
        rintro rfl
        rw [hp] at hpd
        cases hpd
      · exact not_prefix_of_not_mem hc (hinhibitors token htoken)
    rw [byteCount] at hle ⊢
    rw [h.seek_char hstop hsilent, ih htokens h.tail (by omega), Nat.add_assoc]
  | @quoted p content xs hcontent _ ih =>
    rw [List.append_assoc] at h
    rw [byteCount_quoted] at hle ⊢
    have hbehind : src.From (offset + byteCount content + 2) (xs ++ rest) := from_behind_quoted h
    have hskip : src.skipInhibited tags.inExpression stop offset = .resume (offset + byteCount content + 2) :=
      skipInhibited_quotable hstop hcontent h (by omega)
    rw [seek_resume hstop (hnone (by decide) h) hskip (by omega), ih htokens hbehind (by omega)]
    congr 1
    omega
  | @brackets p pair hpair inner xs hinner _ _ ih =>
    have hchars : ∀ pair ∈ bracketPairs, pair.1.utf8Size = 1 ∧ pair.2.utf8Size = 1 ∧
        pair.1 ∈ bracketChars := by decide
    obtain ⟨hsize, hsize', hmem⟩ := hchars pair hpair
    rw [List.append_assoc] at h
    rw [Text.byteCount_append, byteCount, byteCount, hsize, hsize'] at hle ⊢
    have hinside : src.From (offset + 1) (inner ++ pair.2 :: (xs ++ rest)) := hsize ▸ h.tail
    have hbehind : src.From (offset + 1 + byteCount inner + 1) (xs ++ rest) := hsize' ▸ hinside.drop.tail
    have hskip : src.skipInhibited tags.inExpression stop offset = .resume (offset + byteCount inner + 2) :=
      skipInhibited_brackets hstop hpair (passesBrackets hstop hinner) h (by omega)
    have hnext : offset + byteCount inner + 2 = offset + 1 + byteCount inner + 1 := by omega
    rw [seek_resume hstop (hnone hmem h) hskip (by omega), hnext, ih htokens hbehind (by omega)]
    congr 1
    omega

end ModelText.Template
