import ModelText.Proofs.Template.Printable

/-!
# Searches across bodies

The search for the end of a block and the search for an else tag skip comments, tags and whole blocks.
So both leave a printed statement behind them, and with it a printed body.
-/

namespace ModelText.Template

open Source
open Text (byteCount)

variable {src : Source} {offset stop : Nat} {xs ys rest : List Char}

/-! ## Silent texts -/

/-- Tokens that begin with the same pair of characters begin nowhere in a text without that pair. -/
theorem silent_of_pair {tokens : List String} {a b : Char}
    (htokens : ∀ token ∈ tokens, [a, b] <+: token.toList) (hxs : ¬ [a, b] <:+: xs)
    (hend : xs.getLast? = some a → rest.head? ≠ some b) : Silent tokens xs rest := by
  induction xs with
  | nil => trivial
  | cons c xs ih =>
    refine ⟨fun token htoken hprefix => ?_, ih (fun h => hxs (List.infix_cons h)) ?_⟩
    · have hpair : [a, b] <+: c :: (xs ++ rest) := (htokens token htoken).trans hprefix
      obtain ⟨rfl, hsecond⟩ := List.cons_prefix_cons.mp hpair
      cases xs with
      | nil =>
        obtain ⟨tail, rfl⟩ := hsecond
        exact hend rfl rfl
      | cons d xs =>
        obtain ⟨rfl, -⟩ := List.cons_prefix_cons.mp hsecond
        exact hxs ⟨[], xs, rfl⟩
    · intro hlast
      cases xs with
      | nil => cases hlast
      | cons d xs => exact hend hlast

/-- No part of the closing tag of a comment begins it, so it stands at its own place only. -/
theorem silent_commentCloser (hxs : ¬ "--%>".toList <:+: xs) :
    Silent ["--%>"] xs ("--%>".toList ++ rest) := by
  induction xs with
  | nil => trivial
  | cons c xs ih =>
    refine ⟨fun token htoken hprefix => ?_, ih fun h => hxs (List.infix_cons h)⟩
    rw [List.mem_singleton.mp htoken] at hprefix
    obtain ⟨tail, htail⟩ := hprefix
    -- A token that reaches into the closing tag would have to end in a part that begins it.
    match xs with
    | [] => cases htail
    | [d] => cases htail
    | [d, e] => cases htail
    | d :: e :: f :: xs =>
      cases htail
      exact hxs ⟨[], xs, rfl⟩

/-- A token does not begin a text that differs from it at a place which both have. -/
theorem not_prefix_of_differ (h : ∃ pair ∈ xs.zip ys, pair.1 ≠ pair.2) : ¬ xs <+: ys ++ rest := by
  induction xs generalizing ys with
  | nil =>
    obtain ⟨pair, hpair, -⟩ := h
    cases hpair
  | cons c xs ih =>
    intro hprefix
    cases ys with
    | nil =>
      obtain ⟨pair, hpair, -⟩ := h
      cases hpair
    | cons d ys =>
      obtain ⟨rfl, htail⟩ := List.cons_prefix_cons.mp hprefix
      obtain ⟨pair, hpair, hne⟩ := h
      rcases List.mem_cons.mp hpair with rfl | hmem
      · exact hne rfl
      · exact ih ⟨pair, hmem, hne⟩ htail

theorem getLast?_header (e : Expr) : e.header.getLast? = some '>' := by
  have hheader : e.header = (' ' :: ('(' :: e.write.toList ++ ')' :: "\x7b%".toList)) ++ ['>'] := by
    simp [Expr.header]
  rw [hheader, List.getLast?_concat]

theorem untagged_header {e : Expr} (he : e.Printable) : ¬ ['<', '%'] <:+: e.header := by
  have hheader : e.header = [' '] ++ (('(' :: e.write.toList ++ [')']) ++ "\x7b%>".toList) := by
    simp [Expr.header]
  have hround : ¬ ['<', '%'] <:+: '(' :: e.write.toList ++ [')'] :=
    (he.balanced.bracketed ('(', ')') (by decide)).untagged.1
  rw [hheader]
  intro h
  rcases pair_infix_append h with h | h | ⟨h, -⟩
  · revert h
    decide
  · rcases pair_infix_append h with h | h | ⟨-, h⟩
    · exact hround h
    · revert h
      decide
    · cases h
  · cases h

/-! ## Regions of a body -/

/-- The keywords that open a block. -/
def blockOpeners : List String := ["<%if", "<%for"]

/-- A comment is skipped as a whole. -/
theorem skipInhibited_comment (hstop : stop ≤ src.size) (hxs : ¬ "--%>".toList <:+: xs)
    (h : src.From offset ("<%--".toList ++ (xs ++ ("--%>".toList ++ rest))))
    (hle : offset + byteCount xs + 8 ≤ stop) :
    src.skipInhibited Dialect.angle.tags.inBody stop offset = .resume (offset + byteCount xs + 8) := by
  have hopener : "<%--".utf8ByteSize = 4 ∧ "--%>".utf8ByteSize = 4 := by decide
  have hinner : src.From (offset + 4) (xs ++ ("--%>".toList ++ rest)) := h.drop
  have hfits : offset + "<%--".utf8ByteSize ≤ stop := by omega
  have hinhibitor : src.inhibitorAt Dialect.angle.tags.inBody offset stop =
      some ⟨"<%--", "--%>", .flat⟩ :=
    h.inhibitorAt_eq [] ⟨_, rfl⟩ (by decide) hfits nofun
  have hend : src.seek ["--%>"] [] stop (offset + 4) =
      some (0, ⟨offset + 4 + byteCount xs, offset + 4 + byteCount xs + 4⟩) :=
    hinner.seek_token hstop (silent_commentCloser hxs) ⟨rest, rfl⟩ (by decide) (by omega)
  rw [skipInhibited_flat hinhibitor rfl]
  dsimp only
  rw [hopener.1, hend]
  simp only [Option.map_some, Skip.ofEnd, Skip.resume.injEq]
  omega

/-- A tag that opens neither a comment nor a block is skipped as a whole. -/
theorem skipInhibited_plainTag (hstop : stop ≤ src.size) (hxs : ¬ ['%', '>'] <:+: xs)
    (hharmless : Harmless xs) (h : src.From offset ("<%".toList ++ (xs ++ ("%>".toList ++ rest))))
    (hle : offset + byteCount xs + 4 ≤ stop) :
    src.skipInhibited Dialect.angle.tags.inBody stop offset = .resume (offset + byteCount xs + 4) := by
  have hsize : "<%".utf8ByteSize = 2 ∧ "%>".utf8ByteSize = 2 := by decide
  have hinner : src.From (offset + 2) (xs ++ ("%>".toList ++ rest)) := h.drop
  have hothers : ∀ i ∈ Dialect.angle.tags.inBody.take 3, ∃ word ∈ keywords,
      i.opener.toList = "<%".toList ++ word.toList := by decide
  have hfits : offset + "<%".utf8ByteSize ≤ stop := by omega
  have hinhibitor : src.inhibitorAt Dialect.angle.tags.inBody offset stop =
      some ⟨"<%", "%>", .tag⟩ := by
    refine h.inhibitorAt_eq (Dialect.angle.tags.inBody.take 3) ⟨_, rfl⟩ (by decide) hfits
      fun i hi hprefix => ?_
    obtain ⟨word, hword, heq⟩ := hothers i hi
    rw [heq, List.prefix_append_right_inj] at hprefix
    have hbehind : ∀ c, ("%>".toList ++ rest).head? = some c → c ∈ " .([%".toList := by
      rintro c ⟨⟩
      decide
    exact hharmless.append hbehind word hword hprefix
  have hend : src.seek ["%>"] [] stop (offset + 2) =
      some (0, ⟨offset + 2 + byteCount xs, offset + 2 + byteCount xs + 2⟩) :=
    hinner.seek_token hstop (silent_of_pair (by decide) hxs fun _ => nofun) ⟨rest, rfl⟩ (by decide)
      (by omega)
  rw [skipInhibited_tag hinhibitor rfl rfl]
  dsimp only
  rw [hsize.1, hend]
  simp only [Option.map_some, Skip.ofEnd, Skip.resume.injEq]
  omega

/-! ## Passing over a text -/

/-- The search for the end of a block leaves a text behind it, whatever block it is. -/
def PassesBlocks (src : Source) (stop : Nat) (xs rest : List Char) : Prop :=
  ∀ keyword ∈ blockOpeners, ∀ ⦃offset : Nat⦄, src.From offset (xs ++ rest) →
    offset + byteCount xs ≤ stop → ∀ depth,
      src.closing keyword "<%\x7d%>" Dialect.angle.tags.inBody stop depth offset =
        src.closing keyword "<%\x7d%>" Dialect.angle.tags.inBody stop depth (offset + byteCount xs)

/-- The search for an else tag leaves a text behind it. -/
def PassesElse (src : Source) (stop : Nat) (xs rest : List Char) : Prop :=
  ∀ ⦃offset : Nat⦄, src.From offset (xs ++ rest) → offset + byteCount xs ≤ stop →
    src.seek ["<%\x7delse"] Dialect.angle.tags.inBody stop offset =
      src.seek ["<%\x7delse"] Dialect.angle.tags.inBody stop (offset + byteCount xs)

/-- A text is skipped as a whole. -/
def SkippedInBody (src : Source) (stop : Nat) (xs rest : List Char) : Prop :=
  ∀ ⦃offset : Nat⦄, src.From offset (xs ++ rest) → offset + byteCount xs ≤ stop →
    src.skipInhibited Dialect.angle.tags.inBody stop offset = .resume (offset + byteCount xs)

namespace PassesBlocks

theorem append (hxs : PassesBlocks src stop xs (ys ++ rest)) (hys : PassesBlocks src stop ys rest) :
    PassesBlocks src stop (xs ++ ys) rest := by
  intro keyword hkeyword offset h hle depth
  rw [List.append_assoc] at h
  rw [Text.byteCount_append] at hle ⊢
  rw [hxs keyword hkeyword h (by omega), hys keyword hkeyword h.drop (by omega), Nat.add_assoc]

variable (hstop : stop ≤ src.size)

include hstop

theorem of_silent (hxs : ¬ ['<', '%'] <:+: xs) (hend : xs.getLast? = some '<' → rest.head? ≠ some '%') :
    PassesBlocks src stop xs rest := by
  intro keyword hkeyword offset h _ depth
  refine h.closing_silent hstop (silent_of_pair ?_ hxs hend)
  revert keyword
  decide

/-- A text that is skipped is left behind when none of the tokens looked for begins it. -/
theorem closing_of_skipped (hskip : SkippedInBody src stop xs rest) (hxs : xs ≠ [])
    (h : src.From offset (xs ++ rest)) (hle : offset + byteCount xs ≤ stop) {keyword : String}
    (htokens : ∀ token ∈ ["<%\x7d%>", keyword], ¬ token.toList <+: xs ++ rest) (depth : Nat) :
    src.closing keyword "<%\x7d%>" Dialect.angle.tags.inBody stop depth offset =
      src.closing keyword "<%\x7d%>" Dialect.angle.tags.inBody stop depth (offset + byteCount xs) := by
  have hfalse : ∀ token ∈ ["<%\x7d%>", keyword], src.tokenAt offset token stop = false := by
    intro token htoken
    rw [← Bool.not_eq_true, h.tokenAt_iff]
    exact fun hall => htokens token htoken hall.2.2
  have hpos : byteCount xs ≠ 0 := fun hzero => hxs (Text.byteCount_eq_zero hzero)
  exact closing_resume hstop (hfalse _ (by simp)) (hfalse _ (by simp)) (hskip h hle) (by omega)

end PassesBlocks

theorem PassesElse.append (hxs : PassesElse src stop xs (ys ++ rest))
    (hys : PassesElse src stop ys rest) : PassesElse src stop (xs ++ ys) rest := by
  intro offset h hle
  rw [List.append_assoc] at h
  rw [Text.byteCount_append] at hle ⊢
  rw [hxs h (by omega), hys h.drop (by omega), Nat.add_assoc]

theorem PassesElse.of_silent (hstop : stop ≤ src.size) (hxs : ¬ ['<', '%'] <:+: xs)
    (hend : xs.getLast? = some '<' → rest.head? ≠ some '%') : PassesElse src stop xs rest :=
  fun _ h _ => h.seek_silent hstop (silent_of_pair (by decide) hxs hend)

theorem PassesElse.of_skipped (hstop : stop ≤ src.size) (hskip : SkippedInBody src stop xs rest)
    (hxs : xs ≠ []) (htoken : ¬ "<%\x7delse".toList <+: xs ++ rest) : PassesElse src stop xs rest := by
  intro offset h hle
  have hnone : src.firstTokenAt offset stop ["<%\x7delse"] = none := by
    refine firstTokenAt_eq_none fun token hmem => ?_
    rw [List.mem_singleton.mp hmem, ← Bool.not_eq_true, h.tokenAt_iff]
    exact fun hall => htoken hall.2.2
  have hpos : byteCount xs ≠ 0 := fun hzero => hxs (Text.byteCount_eq_zero hzero)
  exact seek_resume hstop hnone (hskip h hle) (by omega)

/-! ## Blocks -/

section Blocks

variable {keyword : String} (hstop : stop ≤ src.size) (hkeyword : keyword ∈ blockOpeners)
  (hxs : PassesBlocks src stop xs ("<%\x7d%>".toList ++ rest))

include hstop hkeyword hxs

/-- A block is skipped as a whole. -/
theorem skippedInBody_block :
    SkippedInBody src stop (keyword.toList ++ (xs ++ "<%\x7d%>".toList)) rest := by
  obtain ⟨before, after, heq, hbefore⟩ : ∃ before after, Dialect.angle.tags.inBody =
      before ++ ⟨keyword, "<%\x7d%>", .nested⟩ :: after ∧
        ∀ j ∈ before, ∃ pair ∈ j.opener.toList.zip keyword.toList, pair.1 ≠ pair.2 := by
    simp only [blockOpeners, List.mem_cons, List.not_mem_nil, or_false] at hkeyword
    rcases hkeyword with rfl | rfl
    · exact ⟨Dialect.angle.tags.inBody.take 1, Dialect.angle.tags.inBody.drop 2, rfl, by decide⟩
    · exact ⟨Dialect.angle.tags.inBody.take 2, Dialect.angle.tags.inBody.drop 3, rfl, by decide⟩
  have hne : ∀ keyword ∈ blockOpeners, keyword.toList ≠ [] := by decide
  have hcloser : byteCount "<%\x7d%>".toList = 5 ∧ "<%\x7d%>".utf8ByteSize = 5 := by decide
  intro offset h hle
  simp only [List.append_assoc] at h
  rw [Text.byteCount_append, Text.byteCount_append, Text.byteCount_toList keyword, hcloser.1] at hle ⊢
  have hfits : offset + keyword.utf8ByteSize ≤ stop := by omega
  have hinhibitor : src.inhibitorAt Dialect.angle.tags.inBody offset stop =
      some ⟨keyword, "<%\x7d%>", .nested⟩ := by
    rw [heq]
    exact h.inhibitorAt_eq before ⟨_, rfl⟩ (hne keyword hkeyword) hfits fun j hj =>
      not_prefix_of_differ (hbefore j hj)
  have hinner : src.From (offset + keyword.utf8ByteSize) (xs ++ ("<%\x7d%>".toList ++ rest)) := by
    rw [← Text.byteCount_toList]
    exact h.drop
  have hstands : src.tokenAt (offset + keyword.utf8ByteSize + byteCount xs) "<%\x7d%>" stop = true :=
    (hinner.drop.tokenAt_iff _ _).mpr ⟨by decide, by omega, ⟨rest, rfl⟩⟩
  rw [skipInhibited_nested hstop hinhibitor rfl]
  dsimp only
  rw [hxs keyword hkeyword hinner (by omega), closing_found hstands, hcloser.2]
  simp only [Skip.ofEnd, Skip.resume.injEq]
  omega

theorem passesBlocks_block :
    PassesBlocks src stop (keyword.toList ++ (xs ++ "<%\x7d%>".toList)) rest := by
  have hcloser : byteCount "<%\x7d%>".toList = 5 ∧ "<%\x7d%>".utf8ByteSize = 5 := by decide
  have hdiffer : ∀ keyword ∈ blockOpeners, keyword.toList ≠ [] ∧
      (∃ pair ∈ "<%\x7d%>".toList.zip keyword.toList, pair.1 ≠ pair.2) ∧
      ∀ own ∈ blockOpeners, own ≠ keyword →
        ∃ pair ∈ own.toList.zip keyword.toList, pair.1 ≠ pair.2 := by decide
  obtain ⟨hne, hcloserNe, hothers⟩ := hdiffer keyword hkeyword
  intro own hown offset h hle depth
  by_cases hsame : own = keyword
  · subst hsame
    simp only [List.append_assoc] at h
    rw [Text.byteCount_append, Text.byteCount_append, Text.byteCount_toList own, hcloser.1] at hle ⊢
    have hinner : src.From (offset + own.utf8ByteSize) (xs ++ ("<%\x7d%>".toList ++ rest)) := by
      rw [← Text.byteCount_toList]
      exact h.drop
    have hnotCloser : src.tokenAt offset "<%\x7d%>" stop = false := by
      rw [← Bool.not_eq_true, h.tokenAt_iff]
      exact fun hall => not_prefix_of_differ hcloserNe hall.2.2
    have hopens : src.tokenAt offset own stop = true :=
      (h.tokenAt_iff _ _).mpr ⟨hne, by omega, ⟨_, rfl⟩⟩
    have hcloses : src.tokenAt (offset + own.utf8ByteSize + byteCount xs) "<%\x7d%>" stop = true :=
      (hinner.drop.tokenAt_iff _ _).mpr ⟨by decide, by omega, ⟨rest, rfl⟩⟩
    rw [closing_opener hstop hnotCloser hopens, hxs own hown hinner (by omega),
      closing_closer hstop hcloses, hcloser.2]
    congr 1
    omega
  · refine PassesBlocks.closing_of_skipped hstop (skippedInBody_block hstop hkeyword hxs)
      (by simp [hne]) h hle (fun token htoken => ?_) depth
    rw [List.append_assoc]
    simp only [List.mem_cons, List.not_mem_nil, or_false] at htoken
    rcases htoken with rfl | rfl
    · exact not_prefix_of_differ hcloserNe
    · exact not_prefix_of_differ (hothers token hown hsame)

theorem passesElse_block :
    PassesElse src stop (keyword.toList ++ (xs ++ "<%\x7d%>".toList)) rest := by
  have hdiffer : ∀ keyword ∈ blockOpeners, keyword.toList ≠ [] ∧
      ∃ pair ∈ "<%\x7delse".toList.zip keyword.toList, pair.1 ≠ pair.2 := by decide
  obtain ⟨hne, helseNe⟩ := hdiffer keyword hkeyword
  refine PassesElse.of_skipped hstop (skippedInBody_block hstop hkeyword hxs) (by simp [hne]) ?_
  rw [List.append_assoc]
  exact not_prefix_of_differ helseNe

end Blocks

/-! ## Tags -/

theorem skippedInBody_comment (hstop : stop ≤ src.size) (hxs : IsCommentText xs) :
    SkippedInBody src stop ("<%--".toList ++ (xs ++ "--%>".toList)) rest := by
  have hsize : byteCount "<%--".toList = 4 ∧ byteCount "--%>".toList = 4 := by decide
  intro offset h hle
  simp only [List.append_assoc] at h
  rw [Text.byteCount_append, Text.byteCount_append] at hle ⊢
  rw [skipInhibited_comment hstop hxs.unclosed h (by omega)]
  simp only [Skip.resume.injEq]
  omega

theorem skippedInBody_plainTag (hstop : stop ≤ src.size) (hxs : ¬ ['%', '>'] <:+: xs)
    (hharmless : Harmless xs) : SkippedInBody src stop ("<%".toList ++ (xs ++ "%>".toList)) rest := by
  have hsize : byteCount "<%".toList = 2 ∧ byteCount "%>".toList = 2 := by decide
  intro offset h hle
  simp only [List.append_assoc] at h
  rw [Text.byteCount_append, Text.byteCount_append] at hle ⊢
  rw [skipInhibited_plainTag hstop hxs hharmless h (by omega)]
  simp only [Skip.resume.injEq]
  omega

/-- A token behind the opening sign of a tag begins the tag if the token's word begins its text. -/
theorem not_prefix_plainTag {word token : String} (htoken : token.toList = "<%".toList ++ word.toList)
    (h : ¬ word.toList <+: xs ++ ("%>".toList ++ rest)) :
    ¬ token.toList <+: "<%".toList ++ (xs ++ "%>".toList) ++ rest := by
  rw [htoken, List.append_assoc, List.append_assoc, List.prefix_append_right_inj]
  exact h

/-- The search for the end of a block leaves a tag behind it that opens and closes none. -/
theorem passesBlocks_plainTag (hstop : stop ≤ src.size) (hxs : ¬ ['%', '>'] <:+: xs)
    (hharmless : Harmless xs) (hcloser : ¬ "\x7d%>".toList <+: xs ++ ("%>".toList ++ rest)) :
    PassesBlocks src stop ("<%".toList ++ (xs ++ "%>".toList)) rest := by
  have hwords : ∀ keyword ∈ blockOpeners, ∃ word ∈ keywords,
      keyword.toList = "<%".toList ++ word.toList := by decide
  have hbehind : ∀ c, ("%>".toList ++ rest).head? = some c → c ∈ " .([%".toList := by
    rintro c ⟨⟩
    decide
  intro keyword hkeyword offset h hle depth
  refine PassesBlocks.closing_of_skipped hstop (skippedInBody_plainTag hstop hxs hharmless)
    nofun h hle (fun token htoken => ?_) depth
  simp only [List.mem_cons, List.not_mem_nil, or_false] at htoken
  rcases htoken with rfl | rfl
  · exact not_prefix_plainTag rfl hcloser
  · obtain ⟨word, hword, heq⟩ := hwords token hkeyword
    exact not_prefix_plainTag heq (hharmless.append hbehind word hword)

theorem passesBlocks_header (hstop : stop ≤ src.size) {e : Expr} (he : e.Printable) :
    PassesBlocks src stop e.header rest := by
  refine .of_silent hstop (untagged_header he) fun hlast => ?_
  rw [getLast?_header] at hlast
  cases hlast

/-- The text of an else tag with a condition. -/
theorem passesBlocks_elseIf (hstop : stop ≤ src.size) {e : Expr} (he : e.Printable) :
    PassesBlocks src stop ("<%\x7delse if".toList ++ e.header) rest := by
  -- The first characters stand on their own, so that no comparison has to compute the whole text.
  have htext : "<%\x7delse if".toList ++ e.header =
      "<%".toList ++ (('\x7d' :: 'e' :: ("lse if ".toList ++ (('(' :: e.write.toList ++ [')']) ++ ['\x7b']))) ++
        "%>".toList) := by
    simp [Expr.header]
  have hround : ¬ ['%', '>'] <:+: '(' :: e.write.toList ++ [')'] :=
    (he.balanced.bracketed ('(', ')') (by decide)).untagged.2
  have hword : '>' ∉ "lse if ".toList ∧ "lse if ".toList.getLast? ≠ some '%' := by decide
  rw [htext]
  refine passesBlocks_plainTag hstop (fun h => ?_) (harmless_of_head (by decide)) fun h => ?_
  · rcases pair_infix_cons h with ⟨heq, -⟩ | h
    · cases heq
    rcases pair_infix_cons h with ⟨heq, -⟩ | h
    · cases heq
    rcases pair_infix_append h with h | h | ⟨hlast, -⟩
    · exact hword.1 (h.subset (by simp))
    · rcases pair_infix_append h with h | h | ⟨-, hhead⟩
      · exact hround h
      · have := h.length_le
        simp at this
      · cases hhead
    · exact hword.2 hlast
  · have hsecond := (List.cons_prefix_cons.mp (List.cons_prefix_cons.mp h).2).1
    revert hsecond
    decide

theorem passesBlocks_else (hstop : stop ≤ src.size) :
    PassesBlocks src stop "<%\x7delse\x7b%>".toList rest := by
  have htext : "<%\x7delse\x7b%>".toList =
      "<%".toList ++ ("\x7delse\x7b".toList ++ "%>".toList) := by decide
  rw [htext]
  exact passesBlocks_plainTag hstop (by decide) (harmless_of_head (by decide))
    (not_prefix_of_differ (by decide))

/-! ## Statements -/

theorem Stmt.chars_of_not_isText {s : Stmt} (hs : ¬ s.IsText) :
    ∃ tail, s.chars = "<%".toList ++ tail := by
  cases s with
  | text content => exact absurd trivial hs
  | comment content => exact ⟨_, chars_comment content⟩
  | feature e => exact ⟨_, chars_feature e⟩
  | loop iterator body => exact ⟨_, chars_loop iterator body⟩
  | branch condition body rest => exact ⟨_, chars_branch condition body rest⟩

theorem head?_append_ne {c d : Char} (hxs : xs.head? = some d) (hne : d ≠ c) :
    (xs ++ rest).head? ≠ some c := by
  rw [List.head?_append, hxs]
  exact fun h => hne (Option.some.inj h)

theorem Balanced.head?_append_ne {allowed : String → Prop} (hxs : Balanced allowed xs) {c : Char} (hc : c ∈ ['%', '\x7d'])
    (hrest : rest.head? ≠ some c) : (xs ++ rest).head? ≠ some c := by
  cases hhead : xs.head? with
  | none => rwa [List.head?_append, hhead]
  | some d =>
    rw [List.head?_append, hhead]
    exact fun heq => hxs.head?_ne hc (hhead.trans heq)

/-- A word does not begin a text that begins with another character. -/
theorem not_prefix_of_head? {word : String} {c : Char} (hword : word.toList.head? = some c)
    (h : xs.head? ≠ some c) : ¬ word.toList <+: xs := by
  rintro ⟨tail, rfl⟩
  exact h (by rw [List.head?_append, hword]; rfl)

/-- Nothing behind a text completes a tag that its last character may begin. -/
theorem Body.head?_chars {b : Body} (hb : ¬ b.BeginsWithText) (hrest : rest.head? ≠ some '%') :
    (b.chars ++ rest).head? ≠ some '%' := by
  cases b with
  | nil => exact hrest
  | cons first others =>
    obtain ⟨tail, htail⟩ := Stmt.chars_of_not_isText hb
    rw [chars_cons, htail, List.append_assoc, List.append_assoc]
    exact head?_append_ne (d := '<') (by decide) (by decide)

theorem Branches.head?_chars {b : Branches} (hrest : rest.head? ≠ some '%') :
    (b.chars ++ rest).head? ≠ some '%' := by
  cases b with
  | done => exact hrest
  | «otherwise» body =>
    rw [chars_otherwise, List.append_assoc]
    exact head?_append_ne (d := '<') (by decide) (by decide)
  | elseIf condition body others =>
    rw [chars_elseIf, List.append_assoc]
    exact head?_append_ne (d := '<') (by decide) (by decide)

mutual

theorem Stmt.passes {s : Stmt} {rest : List Char} (hstop : stop ≤ src.size) (hs : s.Printable)
    (hrest : s.IsText → rest.head? ≠ some '%') :
    PassesBlocks src stop s.chars rest ∧ PassesElse src stop s.chars rest := by
  have hcloser : ("<%\x7d%>".toList ++ rest).head? ≠ some '%' :=
    head?_append_ne (d := '<') (by decide) (by decide)
  match s with
  | .text content =>
    have hs : IsPlainText content.toList := hs
    exact ⟨.of_silent hstop hs.untagged fun _ => hrest trivial,
      .of_silent hstop hs.untagged fun _ => hrest trivial⟩
  | .comment content =>
    have hs : IsCommentText content.toList := hs
    rw [Stmt.chars_comment]
    refine ⟨fun keyword hkeyword offset h hle depth => ?_,
      .of_skipped hstop (skippedInBody_comment hstop hs) nofun ?_⟩
    · refine PassesBlocks.closing_of_skipped hstop (skippedInBody_comment hstop hs) nofun h hle
        (fun token htoken => ?_) depth
      rw [List.append_assoc]
      refine not_prefix_of_differ ?_
      simp only [List.mem_cons, List.not_mem_nil, or_false] at htoken
      rcases htoken with rfl | rfl
      · decide
      · revert token
        decide
    · rw [List.append_assoc]
      exact not_prefix_of_differ (by decide)
  | .feature e =>
    have hs : e.Printable := hs
    have hhead : ∀ word ∈ ["\x7d%>", "\x7delse"],
        ¬ word.toList <+: e.write.toList ++ ("%>".toList ++ rest) := fun word hword =>
      not_prefix_of_head? (c := '\x7d') (by revert word; decide)
        (hs.balanced.head?_append_ne (by simp)
          (head?_append_ne (d := '%') (by decide) (by decide)))
    rw [Stmt.chars_feature]
    exact ⟨passesBlocks_plainTag hstop hs.balanced.untagged.2 hs.legible.harmless (hhead _ (by simp)),
      .of_skipped hstop (skippedInBody_plainTag hstop hs.balanced.untagged.2 hs.legible.harmless) nofun
        (not_prefix_plainTag (by decide) (hhead "\x7delse" (by simp)))⟩
  | .loop iterator body =>
    obtain ⟨hiterator, hbody⟩ : iterator.Printable ∧ body.Printable := hs
    have hinner : PassesBlocks src stop (iterator.header ++ body.chars) ("<%\x7d%>".toList ++ rest) :=
      (passesBlocks_header hstop hiterator).append (Body.passes hstop hbody hcloser).1
    rw [Stmt.chars_loop]
    exact ⟨passesBlocks_block hstop (by decide) hinner, passesElse_block hstop (by decide) hinner⟩
  | .branch condition body others =>
    obtain ⟨hcondition, hbody, hothers⟩ :
        condition.Printable ∧ body.Printable ∧ others.Printable := hs
    have hinner : PassesBlocks src stop (condition.header ++ (body.chars ++ others.chars))
        ("<%\x7d%>".toList ++ rest) := by
      refine (passesBlocks_header hstop hcondition).append (.append ?_ (Branches.passes hstop hothers hcloser))
      exact (Body.passes hstop hbody (Branches.head?_chars hcloser)).1
    rw [Stmt.chars_branch]
    exact ⟨passesBlocks_block hstop (by decide) hinner, passesElse_block hstop (by decide) hinner⟩

/-- The searches leave a printed body behind them. -/
theorem Body.passes {b : Body} {rest : List Char} (hstop : stop ≤ src.size) (hb : b.Printable)
    (hrest : rest.head? ≠ some '%') :
    PassesBlocks src stop b.chars rest ∧ PassesElse src stop b.chars rest := by
  match b with
  | .nil => exact ⟨fun _ _ _ _ _ _ => rfl, fun _ _ _ => rfl⟩
  | .cons first others =>
    obtain ⟨hfirst, hnext, hothers⟩ :
        first.Printable ∧ (first.IsText → ¬ others.BeginsWithText) ∧ others.Printable := hb
    have hfirst := Stmt.passes hstop hfirst fun htext =>
      Body.head?_chars (hnext htext) hrest
    have hothers := Body.passes hstop hothers hrest
    rw [Body.chars_cons]
    exact ⟨hfirst.1.append hothers.1, hfirst.2.append hothers.2⟩

theorem Branches.passes {b : Branches} {rest : List Char} (hstop : stop ≤ src.size)
    (hb : b.Printable) (hrest : rest.head? ≠ some '%') : PassesBlocks src stop b.chars rest := by
  match b with
  | .done => exact fun _ _ _ _ _ _ => rfl
  | .otherwise body =>
    have hb : body.Printable := hb
    rw [Branches.chars_otherwise]
    exact (passesBlocks_else hstop).append (Body.passes hstop hb hrest).1
  | .elseIf condition body others =>
    obtain ⟨hcondition, hbody, hothers⟩ :
        condition.Printable ∧ body.Printable ∧ others.Printable := hb
    have hothersPass := Branches.passes hstop hothers hrest
    rw [Branches.chars_elseIf, ← List.append_assoc]
    refine (passesBlocks_elseIf hstop hcondition).append (.append ?_ hothersPass)
    exact (Body.passes hstop hbody (Branches.head?_chars hrest)).1

end

end ModelText.Template
