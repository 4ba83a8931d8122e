import Mathlib.Data.List.Forall2
import Mathlib.Data.List.Induction
import ModelText.Proofs.Template.Grouping
import ModelText.Proofs.Template.Headers

/-!
# Finding the operators of a row

In the text of a row the binary operators that are visible are those between its operands: inside of an
operand only signs are visible. So the text is split where the row is.
-/

namespace ModelText.Template

open Source
open Text (byteCount)

namespace Input

variable {inp : Input} {src : Source} {offset stop : Nat} {xs rest : List Char}

/-- The characters that an operand begins and ends with: neither white space nor signs of operators, each of
one byte. -/
def isEdge (c : Char) : Bool := c.utf8Size == 1 && !Text.isBlank c && !operatorChars.contains c

theorem isAlpha_iff {c : Char} :
    c.isAlpha = true ↔ (65 ≤ c.toNat ∧ c.toNat ≤ 90) ∨ 97 ≤ c.toNat ∧ c.toNat ≤ 122 := by
  change (c.isUpper || (decide (c.val ≥ 'a'.val) && decide (c.val ≤ 'z'.val))) = true ↔ _
  rw [Bool.or_eq_true, Bool.and_eq_true]
  exact or_congr decide_eq_true_iff (and_congr decide_eq_true_iff decide_eq_true_iff)

theorem toNat_of_isNameChar {c : Char} (h : isNameChar false c = true) :
    c.toNat = 95 ∨ 48 ≤ c.toNat ∧ c.toNat ≤ 57 ∨ 65 ≤ c.toNat ∧ c.toNat ≤ 90 ∨
      97 ≤ c.toNat ∧ c.toNat ≤ 122 := by
  simp only [isNameChar, Bool.not_false, Bool.true_and, Bool.or_eq_true, beq_iff_eq, isAlpha_iff, Char.isDigit,
    Bool.and_eq_true, decide_eq_true_eq] at h
  rcases h with (rfl | (h | h)) | h
  · exact .inl rfl
  · exact .inr (.inr (.inl h))
  · exact .inr (.inr (.inr h))
  · exact .inr (.inl h)

/-- Letters, digits and underscores may stand at the edges of an operand. -/
theorem isEdge_of_isNameChar {c : Char} (h : isNameChar false c = true) : isEdge c = true := by
  have hrange := toNat_of_isNameChar h
  have hsize : c.utf8Size = 1 := by
    refine Char.utf8Size_eq_one_iff.mpr ?_
    have hle : c.toNat ≤ 127 := by omega
    exact hle
  have hblank : Text.isBlank c = false := by
    rw [← Bool.not_eq_true]
    intro hblank
    simp only [Text.isBlank, Text.blankRanges, List.any_cons, List.any_nil, Bool.or_eq_true, Bool.and_eq_true,
      decide_eq_true_eq, Bool.or_false] at hblank
    omega
  have hsign : operatorChars.contains c = false := by
    have hsigns : ∀ d ∈ operatorChars, isNameChar false d = false := by decide
    rw [← Bool.not_eq_true, List.contains_iff_mem]
    intro hmem
    rw [hsigns c hmem] at h
    cases h
  rw [isEdge, hsize, hblank, hsign]
  rfl

theorem ne_of_isNameChar {c d : Char} (h : isNameChar false c = true) (hd : isNameChar false d = false) :
    c ≠ d := by
  rintro rfl
  rw [h] at hd
  cases hd

/-- The white space that may stand between the parts of an expression: what trimming removes. -/
def gapChars : List Char := [' ', '\t', '\n', '\x0C', '\r']

/-- The characters that are visible in an operand behind its signs: neither signs of operators nor commas. -/
def isQuiet (c : Char) : Bool := !operatorChars.contains c && c != ','

/-- The text of an operand, without its signs. -/
structure IsCore (xs : List Char) : Prop where
  matched : Matched isQuiet xs
  head : ∃ c, xs.head? = some c ∧ isEdge c = true
  last : ∃ c, xs.getLast? = some c ∧ isEdge c = true

/-- The text of an operand: signs, and what they stand in front of. -/
inductive IsOperand : List Char → Prop where
  | core {xs : List Char} (h : IsCore xs) : IsOperand xs
  | signed {c : Char} {gap xs : List Char} (hc : c ∈ ['!', '-']) (hgap : ∀ b ∈ gap, b ∈ gapChars)
    (h : IsOperand xs) : IsOperand (c :: (gap ++ xs))

namespace IsOperand

theorem sign {c : Char} (hc : c ∈ ['!', '-']) (h : IsOperand xs) : IsOperand (c :: xs) :=
  @signed c [] xs hc nofun h

/-- In an operand no comma is visible. -/
theorem matched (h : IsOperand xs) : Matched (· != ',') xs := by
  induction h with
  | core h =>
    refine h.matched.mono fun c hc => ?_
    rw [isQuiet, Bool.and_eq_true] at hc
    exact hc.2
  | signed hc hgap _ ih =>
    have hplain : ∀ c ∈ ['!', '-'] ++ gapChars, c ∉ bracketChars ∧ (c != ',') = true := by decide
    have hsign := hplain _ (List.mem_append_left _ hc)
    exact .plain hsign.1 hsign.2 ((Matched.of_plain fun b hb =>
      hplain b (List.mem_append_right _ (hgap b hb))).append ih)

/-- An operand begins with a visible character. -/
theorem head (h : IsOperand xs) : ∃ c ys, xs = c :: ys ∧ c.utf8Size = 1 ∧ Text.isBlank c = false ∧ c ≠ '=' := by
  cases h with
  | core h =>
    obtain ⟨c, hhead, hedge⟩ := h.head
    obtain ⟨ys, rfl⟩ := List.head?_eq_some_iff.mp hhead
    simp only [isEdge, Bool.and_eq_true, beq_iff_eq, Bool.not_eq_true'] at hedge
    obtain ⟨⟨hsize, hblank⟩, hsign⟩ := hedge
    refine ⟨c, ys, rfl, hsize, hblank, ?_⟩
    rintro rfl
    exact absurd hsign (by decide)
  | @signed c gap ys hc _ _ =>
    have hsigns : ∀ c ∈ ['!', '-'], c.utf8Size = 1 ∧ Text.isBlank c = false ∧ c ≠ '=' := by decide
    exact ⟨c, gap ++ ys, rfl, hsigns c hc⟩

/-- An operand ends with a visible character that is no sign of an operator. -/
theorem last (h : IsOperand xs) : ∃ ys c, xs = ys ++ [c] ∧ isEdge c = true := by
  induction h with
  | core h =>
    obtain ⟨c, hlast, hedge⟩ := h.last
    obtain ⟨ys, rfl⟩ := List.getLast?_eq_some_iff.mp hlast
    exact ⟨ys, c, rfl, hedge⟩
  | @signed c gap xs _ _ _ ih =>
    obtain ⟨ys, d, rfl, hedge⟩ := ih
    exact ⟨c :: (gap ++ ys), d, by rw [List.cons_append, List.append_assoc], hedge⟩

/-- Behind an operator and white space, an operand does not turn the operator into another one. -/
theorem head?_ne (h : IsOperand xs) {gap : List Char} (hgap : ∀ b ∈ gap, b ∈ gapChars) (rest : List Char) :
    (gap ++ (xs ++ rest)).head? ≠ some '=' := by
  cases gap with
  | nil =>
    obtain ⟨c, ys, rfl, -, -, hne⟩ := h.head
    exact fun heq => hne (Option.some.inj heq)
  | cons b gap =>
    have hne : ∀ b ∈ gapChars, b ≠ '=' := by decide
    exact fun heq => hne b (hgap b List.mem_cons_self) (Option.some.inj heq)

end IsOperand

/-! ## Signs -/

/-- Whether what stands in front of an operator makes it a sign. -/
def PrecedesSign (cs : List Char) : Prop := isSign (String.ofList cs) = true

theorem precedesSign_iff {cs : List Char} :
    PrecedesSign cs ↔ ∀ c, (Text.dropBlankEnd cs).getLast? = some c → c ∈ operatorChars := by
  rw [PrecedesSign, isSign, String.toList_ofList]
  cases (Text.dropBlankEnd cs).getLast? with
  | none => simp
  | some c => simp

theorem dropBlankEnd_concat (cs : List Char) (c : Char) :
    Text.dropBlankEnd (cs ++ [c]) = if Text.isBlank c then Text.dropBlankEnd cs else cs ++ [c] := by
  rw [Text.dropBlankEnd, List.reverse_append, List.reverse_singleton, List.singleton_append,
    List.dropWhile_cons]
  split
  · rfl
  · rw [List.reverse_cons, List.reverse_reverse]

/-- White space in front of an operator is not looked at. -/
theorem dropBlankEnd_gap (cs : List Char) {gap : List Char} (hgap : ∀ b ∈ gap, b ∈ gapChars) :
    Text.dropBlankEnd (cs ++ gap) = Text.dropBlankEnd cs := by
  have hblank : ∀ b ∈ gapChars, Text.isBlank b = true := by decide
  induction gap using List.reverseRecOn with
  | nil => rw [List.append_nil]
  | append_singleton gap b ih =>
    obtain ⟨hgap, hb⟩ := List.forall_mem_append.mp hgap
    rw [← List.append_assoc, dropBlankEnd_concat, if_pos (hblank b (hb b (List.mem_singleton_self b))), ih hgap]

theorem precedesSign_gap {gap : List Char} (hgap : ∀ b ∈ gap, b ∈ gapChars) : PrecedesSign gap := by
  rw [precedesSign_iff, ← List.nil_append gap, dropBlankEnd_gap [] hgap]
  exact nofun

theorem precedesSign_sign {c : Char} (hc : c ∈ ['!', '-']) (cs : List Char) {gap : List Char}
    (hgap : ∀ b ∈ gap, b ∈ gapChars) : PrecedesSign (cs ++ [c] ++ gap) := by
  have hsigns : ∀ c ∈ ['!', '-'], Text.isBlank c = false ∧ c ∈ operatorChars := by decide
  obtain ⟨hblank, hmem⟩ := hsigns c hc
  rw [precedesSign_iff, dropBlankEnd_gap _ hgap, dropBlankEnd_concat, hblank]
  intro d hd
  simp only [Bool.false_eq_true, if_false, List.getLast?_concat, Option.some.injEq] at hd
  exact hd ▸ hmem

/-- Behind an operand an operator is no sign. -/
theorem not_precedesSign {c : Char} (hc : isEdge c = true) (cs : List Char) {gap : List Char}
    (hgap : ∀ b ∈ gap, b ∈ gapChars) : isSign (String.ofList (cs ++ [c] ++ gap)) = false := by
  simp only [isEdge, Bool.and_eq_true, beq_iff_eq, Bool.not_eq_true'] at hc
  obtain ⟨⟨-, hblank⟩, hsign⟩ := hc
  rw [isSign, String.toList_ofList, dropBlankEnd_gap _ hgap, dropBlankEnd_concat, hblank]
  simpa using hsign

/-! ## The search for operators -/

theorem firstTokenAt_of_stands {token : String} {before after : List String}
    (hbefore : ∀ other ∈ before, src.tokenAt offset other stop = false)
    (hstands : src.tokenAt offset token stop = true) :
    src.firstTokenAt offset stop (before ++ token :: after) =
      some (before.length, ⟨offset, offset + token.utf8ByteSize⟩) := by
  induction before with
  | nil => rw [List.nil_append, firstTokenAt, if_pos hstands, Span.ordered_of_le (Nat.le_add_right ..)]; rfl
  | cons other before ih =>
    obtain ⟨hother, hbefore⟩ := List.forall_mem_cons.mp hbefore
    rw [List.cons_append, firstTokenAt, hother, ih hbefore]
    rfl

/-- An operator stands where its symbol does, unless an equality sign makes it another one. -/
theorem firstTokenAt_symbol (operator : Operator)
    (h : src.From offset (operator.symbol.toList ++ rest)) (hrest : rest.head? ≠ some '=')
    (hle : offset + operator.symbol.utf8ByteSize ≤ stop) :
    ∃ index, Operator.all[index]? = some operator ∧
      src.firstTokenAt offset stop (Operator.all.map (·.symbol)) =
        some (index, ⟨offset, offset + operator.symbol.utf8ByteSize⟩) := by
  obtain ⟨before, after, hall, hbefore⟩ : ∃ before after, Operator.all = before ++ operator :: after ∧
      ∀ other ∈ before, ∃ c d, operator.symbol.toList.head? = some c ∧ other.symbol.toList.head? = some d ∧
        (d ≠ c ∨ other.symbol.toList = operator.symbol.toList ++ ['=']) := by
    refine ⟨Operator.all.takeWhile (· ≠ operator), (Operator.all.dropWhile (· ≠ operator)).tail, ?_, ?_⟩
    · cases operator <;> rfl
    · have hfirst : ∀ other ∈ Operator.all.takeWhile (· ≠ operator),
          other.symbol.toList.head?.getD ' ' ≠ operator.symbol.toList.head?.getD ' ' ∨
            other.symbol.toList = operator.symbol.toList ++ ['='] := by
        cases operator <;> decide
      intro other hother
      have hhead (o : Operator) : o.symbol.toList.head? = some (o.symbol.toList.head?.getD ' ') := by
        cases o <;> rfl
      exact ⟨_, _, hhead operator, hhead other, hfirst other hother⟩
  have hstands : src.tokenAt offset operator.symbol stop = true := by
    refine (h.tokenAt_iff _ _).mpr ⟨?_, hle, ⟨rest, rfl⟩⟩
    cases operator <;> decide
  refine ⟨before.length, by rw [hall]; simp, ?_⟩
  rw [hall, List.map_append, List.map_cons, ← List.length_map (·.symbol)]
  refine firstTokenAt_of_stands (fun token htoken => ?_) hstands
  obtain ⟨other, hother, rfl⟩ := List.mem_map.mp htoken
  obtain ⟨c, d, hc, hd, hdiffer⟩ := hbefore other hother
  obtain ⟨symbol, hsymbol⟩ := List.head?_eq_some_iff.mp hc
  have hwhole := h
  rw [hsymbol, List.cons_append] at h
  refine h.tokenAt_eq_false (k := 0) ?_ c.utf8Size_pos
  rcases hdiffer with hne | hlonger
  · exact not_prefix_of_ne hd hne
  · rw [hlonger, ← List.cons_append, ← hsymbol, List.prefix_append_right_inj]
    rintro ⟨tail, rfl⟩
    exact hrest rfl

section Search

variable {operand fuel : Nat} (hsize : stop ≤ inp.src.size)

include hsize

theorem operatorsFrom_succ (hle : offset ≤ stop) :
    inp.operatorsFrom stop (fuel + 1) offset operand =
      match inp.src.seek (Operator.all.map (·.symbol)) inp.tags.inExpression stop offset with
      | none => []
      | some (index, found) =>
        match Operator.all[index]? with
        | none => []
        | some operator =>
          if isSign (inp.slice operand found.start) then
            inp.operatorsFrom stop fuel found.stop operand
          else
            (operator, found) :: inp.operatorsFrom stop fuel found.stop found.stop := by
  rw [operatorsFrom, Span.ordered_of_le hle, findAny?, Nat.min_eq_left hsize]
  rfl

theorem operatorsFrom_congr {offset' : Nat} (hle : offset ≤ stop) (hle' : offset' ≤ stop)
    (h : inp.src.seek (Operator.all.map (·.symbol)) inp.tags.inExpression stop offset =
      inp.src.seek (Operator.all.map (·.symbol)) inp.tags.inExpression stop offset') :
    inp.operatorsFrom stop fuel offset operand = inp.operatorsFrom stop fuel offset' operand := by
  cases fuel with
  | zero => rfl
  | succ fuel => rw [operatorsFrom_succ hsize hle, operatorsFrom_succ hsize hle', h]

theorem operatorsFrom_symbol {operator : Operator} {before : List Char}
    (h : inp.src.From operand (before ++ (operator.symbol.toList ++ rest))) (hrest : rest.head? ≠ some '=')
    (hoffset : offset = operand + byteCount before)
    (hle : offset + operator.symbol.utf8ByteSize ≤ stop) :
    inp.operatorsFrom stop (fuel + 1) offset operand =
      if isSign (String.ofList before) then
        inp.operatorsFrom stop fuel (offset + operator.symbol.utf8ByteSize) operand
      else
        (operator, ⟨offset, offset + operator.symbol.utf8ByteSize⟩) ::
          inp.operatorsFrom stop fuel (offset + operator.symbol.utf8ByteSize)
            (offset + operator.symbol.utf8ByteSize) := by
  subst hoffset
  obtain ⟨index, hindex, hfirst⟩ := firstTokenAt_symbol operator h.drop hrest hle
  have hpos : 0 < operator.symbol.utf8ByteSize := by cases operator <;> decide
  rw [operatorsFrom_succ hsize (by omega), seek_found hfirst (by omega)]
  dsimp only
  rw [hindex]
  dsimp only
  rw [Input.slice, Span.ordered_of_le (Nat.le_add_right ..), h.slice]

/-- White space does not change what is found. -/
theorem operatorsFrom_gap {gap : List Char} (hgap : ∀ b ∈ gap, b ∈ gapChars)
    (h : inp.src.From offset (gap ++ rest)) (hle : offset + byteCount gap ≤ stop) :
    inp.operatorsFrom stop fuel offset operand =
      inp.operatorsFrom stop fuel (offset + byteCount gap) operand := by
  have hheads : ∀ b ∈ gapChars, ∀ token ∈ Operator.all.map (·.symbol) ++
      (Inhibitor.literal :: bracketPairs.map bracketOf).map (·.opener),
      token.toList ≠ [] ∧ token.toList.head? ≠ some b := by decide
  induction gap generalizing offset with
  | nil => rfl
  | cons b gap ih =>
    obtain ⟨hb, hgap⟩ := List.forall_mem_cons.mp hgap
    have hseek := h.seek_char hsize fun token htoken => not_prefix_of_head (hheads b hb token htoken)
    rw [byteCount] at hle ⊢
    rw [operatorsFrom_congr hsize (by omega) (by omega) hseek, ih hgap h.tail (by omega), Nat.add_assoc]

/-- The search for operators leaves an operand behind it: what is visible in it are signs. -/
theorem operatorsFrom_operand {before : List Char} (hxs : IsOperand xs)
    (h : inp.src.From operand (before ++ (xs ++ rest))) (hbefore : PrecedesSign before)
    (hoffset : offset = operand + byteCount before) (hle : offset + byteCount xs ≤ stop)
    (hfuel : stop - offset < fuel) :
    ∃ fuel', stop - (offset + byteCount xs) < fuel' ∧
      inp.operatorsFrom stop fuel offset operand =
        inp.operatorsFrom stop fuel' (offset + byteCount xs) operand := by
  induction hxs generalizing before offset fuel with
  | @core xs hcore =>
    have hheads : ∀ token ∈ Operator.all.map (·.symbol), ∃ d ∈ operatorChars,
        token.toList.head? = some d ∧ isQuiet d = false ∧ d ∉ bracketChars := by decide
    have htokens : ∀ token ∈ Operator.all.map (·.symbol),
        ∃ d, token.toList.head? = some d ∧ isQuiet d = false ∧ d ∉ bracketChars := fun token htoken =>
      let ⟨d, _, hd⟩ := hheads token htoken
      ⟨d, hd⟩
    have hxs : inp.src.From offset (xs ++ rest) := hoffset ▸ h.drop
    refine ⟨fuel, by omega, operatorsFrom_congr hsize (by omega) hle ?_⟩
    exact seek_matched hsize hcore.matched htokens hxs hle
  | @signed c gap xs hc hgap hxs ih =>
    have hhere : inp.src.From offset (c :: (gap ++ (xs ++ rest))) := by
      rw [hoffset]
      simpa using h.drop
    have hnext : inp.src.From operand ((before ++ [c] ++ gap) ++ (xs ++ rest)) := by simpa using h
    have hsigns : ∀ c ∈ ['!', '-'], c.utf8Size = 1 := by decide
    have hwidth := hsigns c hc
    have hbehind : inp.src.From (offset + 1) (gap ++ (xs ++ rest)) := hwidth ▸ hhere.tail
    have hcount : offset + 1 + byteCount gap = operand + byteCount (before ++ [c] ++ gap) := by
      rw [Text.byteCount_append, Text.byteCount_append, byteCount, byteCount, hwidth]
      omega
    have hhead := hxs.head?_ne hgap rest
    have hsigned := precedesSign_sign hc before hgap
    rw [byteCount, Text.byteCount_append, hwidth] at hle ⊢
    obtain ⟨fuel, rfl⟩ : ∃ n, fuel = n + 1 := ⟨fuel - 1, by omega⟩
    simp only [List.mem_cons, List.not_mem_nil, or_false] at hc
    rcases hc with rfl | rfl
    · have hsilent : ∀ token ∈ Operator.all.map (·.symbol) ++ inp.tags.inExpression.map (·.opener),
          ¬ token.toList <+: '!' :: (gap ++ (xs ++ rest)) := by
        have htokens : ∀ token ∈ Operator.all.map (·.symbol) ++
            (Inhibitor.literal :: bracketPairs.map bracketOf).map (·.opener),
            (token.toList ≠ [] ∧ token.toList.head? ≠ some '!') ∨ token = "!=" := by decide
        intro token htoken
        rcases htokens token htoken with hother | rfl
        · exact not_prefix_of_head hother
        · rintro ⟨tail, htail⟩
          refine hhead ?_
          have hrest : '=' :: tail = gap ++ (xs ++ rest) := (List.cons.inj htail).2
          rw [← hrest]
          rfl
      have hseek := hhere.seek_char hsize hsilent
      rw [hwidth] at hseek
      obtain ⟨fuel', hfuel', heq⟩ := @ih (offset + 1 + byteCount gap) (fuel + 1) _ hnext hsigned
        hcount (by omega) (by omega)
      refine ⟨fuel', by omega, ?_⟩
      rw [operatorsFrom_congr hsize (by omega) (by omega) hseek,
        operatorsFrom_gap hsize hgap hbehind (by omega), heq]
      congr 1
      omega
    · have hsymbol : Operator.subtract.symbol.utf8ByteSize = 1 := by decide
      obtain ⟨fuel', hfuel', heq⟩ := @ih (offset + 1 + byteCount gap) fuel _ hnext hsigned
        hcount (by omega) (by omega)
      refine ⟨fuel', by omega, ?_⟩
      have hflat : inp.src.From operand (before ++ ('-' :: (gap ++ (xs ++ rest)))) := by simpa using h
      have hminus := @operatorsFrom_symbol inp offset stop (gap ++ (xs ++ rest)) operand fuel hsize .subtract before
        hflat hhead hoffset (by omega)
      have hsign : isSign (String.ofList before) = true := hbefore
      rw [hminus, if_pos hsign, hsymbol, operatorsFrom_gap hsize hgap hbehind (by omega), heq]
      congr 1
      omega

end Search

end Input

/-! ## The operators of a row -/

/-- How the operands of a row are written, with white space around the operator in front of each. -/
structure Writing (α : Type) where
  chars : α → List Char
  /-- The white space in front of the operator. -/
  front : α → List Char
  /-- The white space between the operator and the operand. -/
  behind : α → List Char
  gap_front : ∀ a, ∀ b ∈ front a, b ∈ Input.gapChars
  gap_behind : ∀ a, ∀ b ∈ behind a, b ∈ Input.gapChars

namespace Writing

variable {α : Type} (w : Writing α)

/-- The text of operators and their operands. -/
def tail (behind : List (Operator × α)) : List Char :=
  behind.flatMap fun x => w.front x.2 ++ (x.1.symbol.toList ++ (w.behind x.2 ++ w.chars x.2))

/-- The text of a row. -/
def text (r : Row α) : List Char := w.chars r.first ++ w.tail r.rest

/-- One blank stands at either side of an operator. -/
def printed : Writing Operand where
  chars := Operand.chars
  front _ := [' ']
  behind _ := [' ']
  gap_front _ := by decide
  gap_behind _ := by decide

theorem tail_cons (x : Operator × α) (behind : List (Operator × α)) :
    w.tail (x :: behind) =
      w.front x.2 ++ (x.1.symbol.toList ++ (w.behind x.2 ++ (w.chars x.2 ++ w.tail behind))) := by
  simp [tail]

theorem byteCount_tail_cons (x : Operator × α) (behind : List (Operator × α)) :
    byteCount (w.tail (x :: behind)) = byteCount (w.front x.2) + x.1.symbol.utf8ByteSize +
      byteCount (w.behind x.2) + byteCount (w.chars x.2) + byteCount (w.tail behind) := by
  simp only [tail_cons, Text.byteCount_append, Text.byteCount_toList]
  omega

theorem text_one (a : α) : w.text (.one a) = w.chars a := List.append_nil _

theorem text_append (r : Row α) (more : List (Operator × α)) :
    w.text ⟨r.first, r.rest ++ more⟩ = w.text r ++ w.tail more := by
  simp [text, tail]

theorem text_concat (r : Row α) (x : Operator × α) :
    w.text ⟨r.first, r.rest ++ [x]⟩ =
      w.text r ++ (w.front x.2 ++ (x.1.symbol.toList ++ (w.behind x.2 ++ w.chars x.2))) := by
  simp [text, tail]

theorem byteCount_text_concat (r : Row α) (x : Operator × α) :
    byteCount (w.text ⟨r.first, r.rest ++ [x]⟩) = byteCount (w.text r) + byteCount (w.front x.2) +
      x.1.symbol.utf8ByteSize + byteCount (w.behind x.2) + byteCount (w.chars x.2) := by
  simp only [text_concat, Text.byteCount_append, Text.byteCount_toList]
  omega

/-- No bracket opens behind an operand. -/
theorem bracket_not_leading {gap : List Char} (hgap : ∀ b ∈ gap, b ∈ Input.gapChars) (operator : Operator)
    (rest : List Char) :
    ∀ bracket ∈ ["(", "["], ¬ bracket.toList <+: gap ++ (operator.symbol.toList ++ rest) := by
  have hchars : ∀ b ∈ Input.gapChars, b ∉ ['(', '['] := by decide
  cases gap with
  | nil =>
    have hhead : ∃ c cs, operator.symbol.toList = c :: cs ∧ c ∉ ['(', '['] := by
      cases operator <;> exact ⟨_, _, rfl, by decide⟩
    obtain ⟨c, cs, heq, hc⟩ := hhead
    rw [List.nil_append, heq, List.cons_append]
    exact Input.bracket_not_leading hc
  | cons b gap => exact Input.bracket_not_leading (hchars b (hgap b List.mem_cons_self))

end Writing

namespace Input

variable {inp : Input} {offset stop : Nat} {rest : List Char} {α : Type} {w : Writing α}

/-- Where operators stand with their operands behind them, from the end of the operand in front on. -/
def separators (w : Writing α) : Nat → List (Operator × α) → List (Operator × Span)
  | _, [] => []
  | stop, x :: behind =>
    (x.1, ⟨stop + byteCount (w.front x.2), stop + byteCount (w.front x.2) + x.1.symbol.utf8ByteSize⟩) ::
      separators w (stop + byteCount (w.front x.2) + x.1.symbol.utf8ByteSize + byteCount (w.behind x.2) +
        byteCount (w.chars x.2)) behind

/-- The operators that are visible in the text of a row are those between its operands. -/
theorem operatorsFrom_row (hsize : stop ≤ inp.src.size) {first : α} {behind : List (Operator × α)}
    {before : List Char} {operand fuel : Nat} (hfirst : IsOperand (w.chars first))
    (hbehind : ∀ x ∈ behind, IsOperand (w.chars x.2))
    (h : inp.src.From operand (before ++ (w.chars first ++ (w.tail behind ++ rest))))
    (hbefore : PrecedesSign before) (hoffset : offset = operand + byteCount before)
    (hstop : stop = offset + byteCount (w.chars first) + byteCount (w.tail behind))
    (hfuel : stop - offset < fuel) :
    inp.operatorsFrom stop fuel offset operand = separators w (offset + byteCount (w.chars first)) behind := by
  induction behind generalizing first before offset operand fuel with
  | nil =>
    obtain ⟨fuel', hfuel', heq⟩ := operatorsFrom_operand hsize hfirst h hbefore hoffset (by omega) hfuel
    have hend : stop = offset + byteCount (w.chars first) := hstop
    obtain ⟨fuel', rfl⟩ : ∃ n, fuel' = n + 1 := ⟨fuel' - 1, by omega⟩
    rw [heq, operatorsFrom_succ hsize (by omega), seek_of_le (by omega)]
    rfl
  | cons x behind ih =>
    obtain ⟨fuel', hfuel', heq⟩ := operatorsFrom_operand hsize hfirst h hbefore hoffset (by omega) hfuel
    obtain ⟨fuel', rfl⟩ : ∃ n, fuel' = n + 1 := ⟨fuel' - 1, by omega⟩
    obtain ⟨hx, hbehind⟩ := List.forall_mem_cons.mp hbehind
    obtain ⟨ys, c, hlast, hedge⟩ := hfirst.last
    have hfront := w.gap_front x.2
    have hgap := w.gap_behind x.2
    have hpos : 0 < x.1.symbol.utf8ByteSize := by cases x.1 <;> decide
    rw [w.byteCount_tail_cons] at hstop
    rw [w.tail_cons] at h
    have hflat : inp.src.From operand ((before ++ w.chars first ++ w.front x.2) ++ (x.1.symbol.toList ++
        (w.behind x.2 ++ (w.chars x.2 ++ (w.tail behind ++ rest))))) := by simpa using h
    have hblank : inp.src.From (offset + byteCount (w.chars first)) (w.front x.2 ++ (x.1.symbol.toList ++
        (w.behind x.2 ++ (w.chars x.2 ++ (w.tail behind ++ rest))))) := by
      have hdrop := h.drop.drop
      rw [← hoffset] at hdrop
      simpa using hdrop
    have hnext : inp.src.From (offset + byteCount (w.chars first) + byteCount (w.front x.2) +
        x.1.symbol.utf8ByteSize) (w.behind x.2 ++ (w.chars x.2 ++ (w.tail behind ++ rest))) := by
      have hdrop := hblank.drop.drop
      rwa [Text.byteCount_toList] at hdrop
    have hsign : isSign (String.ofList (before ++ w.chars first ++ w.front x.2)) = false := by
      rw [hlast, ← List.append_assoc]
      exact not_precedesSign hedge _ hfront
    have hcount : byteCount (before ++ w.chars first ++ w.front x.2) =
        byteCount before + byteCount (w.chars first) + byteCount (w.front x.2) := by
      rw [Text.byteCount_append, Text.byteCount_append]
    rw [heq, operatorsFrom_gap hsize hfront hblank (by omega),
      operatorsFrom_symbol hsize hflat (hx.head?_ne hgap _) (by omega) (by omega), hsign,
      if_neg Bool.false_ne_true, separators]
    refine congrArg (_ :: ·) ?_
    rw [operatorsFrom_gap hsize hgap hnext (by omega)]
    exact ih hx hbehind hnext (precedesSign_gap hgap) rfl (by omega) (by omega)

/-! ## The parts of a row -/

/-- A span holds a text with white space around it, and no bracket opens behind. -/
def Covers (inp : Input) (span : Span) (cs : List Char) : Prop :=
  ∃ before after rest, (∀ c ∈ before, c ∈ gapChars) ∧ (∀ c ∈ after, c ∈ gapChars) ∧
    inp.src.From span.start (before ++ (cs ++ (after ++ rest))) ∧
    span.stop = span.start + byteCount before + byteCount cs + byteCount after ∧
    ∀ bracket ∈ ["(", "["], ¬ bracket.toList <+: after ++ rest

/-- Around the operators of a level stand the parts that the row is cut into there. -/
theorem covers_cutFrom (level : Nat) {part : Row α} {behind : List (Operator × α)}
    {before after : List Char} {start : Nat} (hbefore : ∀ c ∈ before, c ∈ gapChars)
    (hafter : ∀ c ∈ after, c ∈ gapChars)
    (h : inp.src.From start (before ++ (w.text part ++ (w.tail behind ++ (after ++ rest)))))
    (hstop : stop = start + byteCount before + byteCount (w.text part) + byteCount (w.tail behind) +
      byteCount after)
    (hrest : ∀ bracket ∈ ["(", "["], ¬ bracket.toList <+: after ++ rest) :
    List.Forall₂ (fun span s => Covers inp span (w.text s))
      (piecesAround start stop
        (((separators w (start + byteCount before + byteCount (w.text part)) behind).filter
          (·.1.level = level)).map (·.2)))
      (Row.cutFrom level part behind) := by
  induction behind generalizing part before start with
  | nil =>
    have hend : stop = start + byteCount before + byteCount (w.text part) + byteCount after := hstop
    refine .cons ⟨before, after, rest, hbefore, hafter, ?_, ?_, hrest⟩ .nil
    · rw [Span.ordered_of_le (by omega)]
      exact h
    · rw [Span.ordered_of_le (by omega)]
      exact hend
  | cons x behind ih =>
    rw [w.byteCount_tail_cons] at hstop
    rw [w.tail_cons] at h
    rw [separators, Row.cutFrom]
    have hflat : inp.src.From start (before ++ (w.text part ++ (w.front x.2 ++ (x.1.symbol.toList ++
        (w.behind x.2 ++ (w.chars x.2 ++ (w.tail behind ++ (after ++ rest)))))))) := by simpa using h
    by_cases hlevel : x.1.level = level
    · have hnext : inp.src.From (start + byteCount before + byteCount (w.text part) + byteCount (w.front x.2) +
          x.1.symbol.utf8ByteSize) (w.behind x.2 ++ (w.text (.one x.2) ++ (w.tail behind ++ (after ++ rest)))) := by
        have hdrop := hflat.drop.drop.drop.drop
        rwa [Text.byteCount_toList, ← w.text_one] at hdrop
      rw [if_pos hlevel, List.filter_cons_of_pos (by simpa using hlevel), List.map_cons, piecesAround]
      dsimp only
      rw [Span.ordered_of_le (by omega)]
      refine .cons ?_ ?_
      · exact ⟨before, w.front x.2, _, hbefore, w.gap_front x.2, hflat, rfl,
          Writing.bracket_not_leading (w.gap_front x.2) x.1 _⟩
      · have hih := ih (w.gap_behind x.2) hnext (by rw [w.text_one]; omega)
        rwa [w.text_one] at hih
    · have hwhole : inp.src.From start (before ++ (w.text ⟨part.first, part.rest ++ [x]⟩ ++
          (w.tail behind ++ (after ++ rest)))) := by
        rw [w.text_concat]
        simpa using hflat
      rw [if_neg hlevel, List.filter_cons_of_neg (by simpa using hlevel)]
      have hih := ih hbefore hwhole (by rw [w.byteCount_text_concat]; omega)
      have hnext : start + byteCount before + byteCount (w.text part) + byteCount (w.front x.2) +
          x.1.symbol.utf8ByteSize + byteCount (w.behind x.2) + byteCount (w.chars x.2) =
          start + byteCount before + byteCount (w.text ⟨part.first, part.rest ++ [x]⟩) := by
        rw [w.byteCount_text_concat]
        omega
      rwa [hnext]

/-! ## The split of a row -/

theorem levels_eq : Operator.levels =
    (List.range Operator.levels.length).map fun level => Operator.all.filter (·.level = level) := by decide

theorem contains_level (operator : Operator) (level : Nat) :
    (Operator.all.filter (·.level = level)).contains operator = decide (operator.level = level) := by
  have hmem : operator ∈ Operator.all := by cases operator <;> decide
  rw [List.contains_eq_mem, decide_eq_decide, List.mem_filter, decide_eq_true_eq]
  exact and_iff_right hmem

theorem separators_append (stop : Nat) (before behind : List (Operator × α)) :
    separators w stop (before ++ behind) =
      separators w stop before ++ separators w (stop + byteCount (w.tail before)) behind := by
  induction before generalizing stop with
  | nil => rfl
  | cons x before ih =>
    have hnext : stop + byteCount (w.front x.2) + x.1.symbol.utf8ByteSize + byteCount (w.behind x.2) +
        byteCount (w.chars x.2) + byteCount (w.tail before) = stop + byteCount (w.tail (x :: before)) := by
      rw [w.byteCount_tail_cons]
      omega
    rw [List.cons_append, separators, ih, separators, List.cons_append, hnext]

theorem map_fst_separators (stop : Nat) (behind : List (Operator × α)) :
    (separators w stop behind).map (·.1) = behind.map (·.1) := by
  induction behind generalizing stop with
  | nil => rfl
  | cons x behind ih => rw [separators, List.map_cons, ih, List.map_cons]

theorem all_separators (stop : Nat) (behind : List (Operator × α)) (p : Operator → Bool) :
    (separators w stop behind).all (fun x => p x.1) = behind.all fun x => p x.1 := by
  have h := congrArg (·.all p) (@map_fst_separators α w stop behind)
  simpa only [List.all_map, Function.comp_def] using h

/-- Operators of other levels do not count. -/
theorem filter_separators_eq_nil {level : Nat} {behind : List (Operator × α)}
    (h : ∀ x ∈ behind, x.1.level ≠ level) (stop : Nat) :
    (separators w stop behind).filter (·.1.level = level) = [] := by
  rw [List.filter_eq_nil_iff]
  intro x hx
  have hfst : x.1 ∈ behind.map (·.1) := by
    rw [← @map_fst_separators α w stop]
    exact List.mem_map_of_mem hx
  obtain ⟨y, hy, heq⟩ := List.mem_map.mp hfst
  simpa [← heq] using h y hy

/-- The same operator, and spans of the parts. -/
def SameSplit (inp : Input) (w : Writing α) (found : Operator × List Span) (split : Operator × List (Row α)) :
    Prop :=
  found.1 = split.1 ∧ List.Forall₂ (fun span s => Covers inp span (w.text s)) found.2 split.2

theorem findSome?_rel {α β γ : Type} {R : β → γ → Prop} {f : α → Option β} {g : α → Option γ}
    (h : ∀ a, Option.Rel R (f a) (g a)) (l : List α) : Option.Rel R (l.findSome? f) (l.findSome? g) := by
  induction l with
  | nil => exact .none
  | cons a l ih =>
    have ha := h a
    rw [List.findSome?_cons, List.findSome?_cons]
    cases hf : f a with
    | none =>
      rw [hf] at ha
      cases hg : g a with
      | none => exact ih
      | some c =>
        rw [hg] at ha
        cases ha
    | some b =>
      rw [hf] at ha
      cases hg : g a with
      | none =>
        rw [hg] at ha
        cases ha
      | some c =>
        rw [hg] at ha
        exact ha

/-- The split at some of the operators of a span. -/
def splitOf (start stop : Nat) (splits : List (Operator × Span)) : Option (Operator × List Span) :=
  splits.getLast?.map fun (operator, last) =>
    if splits.all (·.1 = operator) then (operator, piecesAround start stop (splits.map (·.2)))
    else (operator, piecesAround start stop [last])

section Split

variable {r : Row α} {start : Nat} (h : inp.src.From start (w.text r ++ rest))
  (hrest : ∀ bracket ∈ ["(", "["], ¬ bracket.toList <+: rest)

include h hrest

theorem split_level (level : Nat) :
    Option.Rel (SameSplit inp w)
      (splitOf start (start + byteCount (w.text r))
        ((separators w (start + byteCount (w.chars r.first)) r.rest).filter (·.1.level = level)))
      (r.splitAt? level) := by
  rw [Row.splitAt?, splitOf]
  cases hlast : Row.lastOf level r.rest with
  | none =>
    rw [filter_separators_eq_nil (Row.lastOf_eq_none.mp hlast)]
    exact .none
  | some found =>
    obtain ⟨before, last, behind⟩ := found
    obtain ⟨hwhole, hlevel, hbehind⟩ := Row.lastOf_eq_some.mp hlast
    have hchars : w.text r = w.text ⟨r.first, before⟩ ++ w.tail (last :: behind) := by
      rw [← w.text_append ⟨r.first, before⟩, ← hwhole]
    have hbefore : byteCount (w.text ⟨r.first, before⟩) =
        byteCount (w.chars r.first) + byteCount (w.tail before) := Text.byteCount_append ..
    have hsplits : (separators w (start + byteCount (w.chars r.first)) r.rest).filter (·.1.level = level) =
        (separators w (start + byteCount (w.chars r.first)) before).filter (·.1.level = level) ++
          [(last.1, ⟨start + byteCount (w.text ⟨r.first, before⟩) + byteCount (w.front last.2),
            start + byteCount (w.text ⟨r.first, before⟩) + byteCount (w.front last.2) +
              last.1.symbol.utf8ByteSize⟩)] := by
      rw [hwhole, separators_append, List.filter_append, separators,
        List.filter_cons_of_pos (by simpa using hlevel), filter_separators_eq_nil hbehind, Nat.add_assoc start,
        ← hbefore]
    have hall : ((separators w (start + byteCount (w.chars r.first)) r.rest).filter (·.1.level = level)).all
        (·.1 = last.1) = r.rest.all fun x => x.1.level = level → x.1 = last.1 := by
      rw [List.all_filter, ← @all_separators α w (start + byteCount (w.chars r.first)) r.rest
        fun operator => decide (operator.level = level → operator = last.1)]
      congr 1
      funext x
      by_cases hx : x.1.level = level <;> simp [hx]
    rw [Option.map_some]
    dsimp only
    rw [← hall, hsplits, List.getLast?_concat, Option.map_some, ← hsplits]
    dsimp only
    split
    · refine .some ⟨rfl, ?_⟩
      have hrow : inp.src.From start ([] ++ (w.text (.one r.first) ++ (w.tail r.rest ++ ([] ++ rest)))) := by
        rw [w.text_one]
        simpa [Writing.text] using h
      have hcut := @covers_cutFrom inp (start + byteCount (w.text r)) rest α w level (.one r.first) r.rest [] []
        start (List.forall_mem_nil _) (List.forall_mem_nil _) hrow (by rw [w.text_one, Writing.text, Text.byteCount_append, byteCount]; omega) hrest
      rwa [w.text_one] at hcut
    · refine .some ⟨rfl, ?_⟩
      have hcount : byteCount (w.text r) = byteCount (w.text ⟨r.first, before⟩) + byteCount (w.front last.2) +
          last.1.symbol.utf8ByteSize + byteCount (w.behind last.2) + byteCount (w.text ⟨last.2, behind⟩) := by
        have hsecond : byteCount (w.text ⟨last.2, behind⟩) =
            byteCount (w.chars last.2) + byteCount (w.tail behind) := Text.byteCount_append ..
        rw [hchars, Text.byteCount_append, w.byteCount_tail_cons, hsecond]
        omega
      have hflat : inp.src.From start (w.text ⟨r.first, before⟩ ++ (w.front last.2 ++ (last.1.symbol.toList ++
          (w.behind last.2 ++ (w.text ⟨last.2, behind⟩ ++ rest))))) := by
        rw [hchars, w.tail_cons] at h
        simpa [Writing.text] using h
      have hlastFrom : inp.src.From (start + byteCount (w.text ⟨r.first, before⟩) + byteCount (w.front last.2) +
          last.1.symbol.utf8ByteSize) (w.behind last.2 ++ (w.text ⟨last.2, behind⟩ ++ rest)) := by
        have hdrop := hflat.drop.drop.drop
        rwa [Text.byteCount_toList] at hdrop
      simp only [piecesAround]
      rw [Span.ordered_of_le (by omega), Span.ordered_of_le (by omega)]
      refine .cons ⟨[], w.front last.2, _, List.forall_mem_nil _, w.gap_front last.2, hflat, rfl,
          Writing.bracket_not_leading (w.gap_front last.2) last.1 _⟩
        (.cons ⟨w.behind last.2, [], rest, w.gap_behind last.2, List.forall_mem_nil _, hlastFrom, ?_, hrest⟩ .nil)
      rw [hcount]
      dsimp only [byteCount]
      omega

/-- The text of a row is split where the row is. -/
theorem split?_row (hitems : ∀ a ∈ r.items, IsOperand (w.chars a)) :
    Option.Rel (SameSplit inp w) (inp.split? ⟨start, start + byteCount (w.text r)⟩) r.split? := by
  have hsize : start + byteCount (w.text r) ≤ inp.src.size := by
    rw [h.size, Text.byteCount_append]
    omega
  have hcount : byteCount (w.text r) = byteCount (w.chars r.first) + byteCount (w.tail r.rest) :=
    Text.byteCount_append ..
  have hrow : inp.src.From start ([] ++ (w.chars r.first ++ (w.tail r.rest ++ rest))) := by
    simpa [Writing.text] using h
  obtain ⟨hfirst, hbehind⟩ := List.forall_mem_cons.mp hitems
  have hbehind : ∀ x ∈ r.rest, IsOperand (w.chars x.2) := fun x hx => hbehind _ (List.mem_map_of_mem hx)
  have hoperators : inp.operators ⟨start, start + byteCount (w.text r)⟩ =
      separators w (start + byteCount (w.chars r.first)) r.rest := by
    rw [operators, Span.length]
    dsimp only
    exact operatorsFrom_row hsize hfirst hbehind hrow (precedesSign_gap (List.forall_mem_nil _)) rfl (by omega) (by omega)
  have hsplit : inp.split? ⟨start, start + byteCount (w.text r)⟩ =
      (List.range Operator.levels.length).findSome? fun level =>
        splitOf start (start + byteCount (w.text r))
          ((separators w (start + byteCount (w.chars r.first)) r.rest).filter (·.1.level = level)) := by
    rw [Input.split?, hoperators]
    conv => lhs; rw [levels_eq]
    rw [List.findSome?_map]
    congr 1
    funext level
    simp only [Function.comp_apply, contains_level]
    rfl
  rw [hsplit]
  exact findSome?_rel (split_level h hrest) _

end Split

end Input

end ModelText.Template
