import Mathlib.Data.List.TakeWhile
import Mathlib.Data.String.Basic
import ModelText.Number.Double

/-!
# How numbers are written

The texts that read as numbers, by their grammar: digits with an optional sign for an integer, and for a double
also a point among the digits and an exponent, or one of the words for what is no finite number.
-/

namespace ModelText.Number

/-- A run of decimal digits. -/
def IsDigits (cs : List Char) : Prop := cs ≠ [] ∧ ∀ c ∈ cs, c.isDigit = true

/-- An optional sign, and whether it is a minus. -/
inductive IsSign : List Char → Bool → Prop where
  | none : IsSign [] false
  | plus : IsSign ['+'] false
  | minus : IsSign ['-'] true

/-- An optional sign in front of a text of which `P` holds, given whether the sign is a minus. -/
def Signed (P : Bool → List Char → Prop) (cs : List Char) : Prop :=
  ∃ sign negative body, IsSign sign negative ∧ cs = sign ++ body ∧ P negative body

/-- An exponent, which may be left out. -/
inductive IsExponent : List Char → Prop where
  | none : IsExponent []
  | some {e : Char} {rest : List Char} (he : e = 'e' ∨ e = 'E') (hrest : Signed (fun _ => IsDigits) rest) :
    IsExponent (e :: rest)

/-- Digits with an optional point and an exponent. A point may also stand in front of all digits or after them. -/
inductive IsDecimal : List Char → Prop where
  | whole {digits exponent : List Char} (hdigits : IsDigits digits) (hexponent : IsExponent exponent) :
    IsDecimal (digits ++ exponent)
  | point {whole fraction exponent : List Char} (hdigits : IsDigits (whole ++ fraction))
    (hexponent : IsExponent exponent) : IsDecimal (whole ++ '.' :: (fraction ++ exponent))

/-- A word for what is no finite number, in any case. -/
def IsWord (cs : List Char) : Prop := String.ofList (cs.map Char.toLower) ∈ ["inf", "infinity", "nan"]

/-- A text that writes the integer `n`: digits with an optional sign. -/
def WritesInt64 (cs : List Char) (n : Int64) : Prop :=
  Signed (fun negative digits => IsDigits digits ∧
    n.toInt = if negative then -(digitsValue digits : Int) else digitsValue digits) cs

/-- A text that writes a double: a decimal or a word, with an optional sign. -/
def WritesDouble (cs : List Char) : Prop := Signed (fun _ body => IsWord body ∨ IsDecimal body) cs

/-! ## Signs -/

/-- A text that does not begin with a sign. -/
def Unsigned (cs : List Char) : Prop := cs.head? ≠ some '+' ∧ cs.head? ≠ some '-'

theorem unsigned_cons {c : Char} {cs : List Char} (hplus : c ≠ '+') (hminus : c ≠ '-') : Unsigned (c :: cs) :=
  ⟨fun heq => hplus (Option.some.inj heq), fun heq => hminus (Option.some.inj heq)⟩

section Signed

variable {P : Bool → List Char → Prop} (hP : ∀ {negative body}, P negative body → Unsigned body)

include hP

/-! A sign is read when there is one, as long as what follows it has no sign of its own. -/

theorem signed_minus (rest : List Char) : Signed P ('-' :: rest) ↔ P true rest := by
  refine ⟨?_, fun h => ⟨_, _, _, .minus, rfl, h⟩⟩
  rintro ⟨sign, negative, body, hsign, hcs, hbody⟩
  cases hsign with
  | none => exact absurd (congrArg List.head? hcs.symm) (hP hbody).2
  | plus => cases hcs
  | minus =>
    cases hcs
    exact hbody

theorem signed_plus (rest : List Char) : Signed P ('+' :: rest) ↔ P false rest := by
  refine ⟨?_, fun h => ⟨_, _, _, .plus, rfl, h⟩⟩
  rintro ⟨sign, negative, body, hsign, hcs, hbody⟩
  cases hsign with
  | none => exact absurd (congrArg List.head? hcs.symm) (hP hbody).1
  | plus =>
    cases hcs
    exact hbody
  | minus => cases hcs

omit hP in
theorem signed_none {cs : List Char} (hminus : ∀ rest, cs ≠ '-' :: rest) (hplus : ∀ rest, cs ≠ '+' :: rest) :
    Signed P cs ↔ P false cs := by
  refine ⟨?_, fun h => ⟨_, _, _, .none, rfl, h⟩⟩
  rintro ⟨sign, negative, body, hsign, hcs, hbody⟩
  cases hsign with
  | none => exact hcs ▸ hbody
  | plus => exact absurd hcs (hplus _)
  | minus => exact absurd hcs (hminus _)

end Signed

theorem IsDigits.unsigned {cs : List Char} (h : IsDigits cs) : Unsigned cs := by
  cases cs with
  | nil => exact absurd rfl h.1
  | cons c cs =>
    have hdigit := h.2 c List.mem_cons_self
    refine unsigned_cons ?_ ?_ <;>
      (rintro rfl; cases hdigit)

/-! ## Integers -/

theorem digits?_eq_some_iff {cs : List Char} {value : Nat} :
    digits? cs = some value ↔ IsDigits cs ∧ digitsValue cs = value := by
  cases cs with
  | nil => exact iff_of_false nofun fun h => h.1.1 rfl
  | cons c cs =>
    rw [digits?, Option.ite_none_right_eq_some, List.all_eq_true, Option.some_inj]
    · exact and_congr_left' ⟨fun h => ⟨List.cons_ne_nil _ _, h⟩, And.right⟩
    · exact List.cons_ne_nil _ _

/-- A number is written in digits. -/
theorem isDigits_repr (n : Nat) : IsDigits n.repr.toList := by
  rw [Nat.toList_repr]
  exact ⟨Nat.toDigits_ne_nil, fun c hc => Nat.isDigit_of_mem_toDigits (by decide) (by decide) hc⟩

theorem exists_digit_repr (n : Nat) : ∃ c cs, n.repr.toList = c :: cs ∧ c.isDigit = true := by
  obtain ⟨hne, hdigits⟩ := isDigits_repr n
  obtain ⟨c, cs, hchars⟩ := List.exists_cons_of_ne_nil hne
  exact ⟨c, cs, hchars, hdigits c (by rw [hchars]; exact List.mem_cons_self)⟩

/-- A number is read back from its digits. -/
theorem digits?_repr (n : Nat) : digits? n.repr.toList = some n := by
  refine digits?_eq_some_iff.mpr ⟨isDigits_repr n, ?_⟩
  rw [Nat.toList_repr]
  exact Nat.ofDigitChars_ten_toDigits

theorem readNat_repr (limit n : Nat) : readNat limit n.repr.toList = (some n).filter (· ≤ limit) := by
  have hdigits := digits?_repr n
  obtain ⟨c, cs, hchars, hdigit⟩ := exists_digit_repr n
  rw [hchars] at hdigits ⊢
  unfold readNat
  split
  · next heq =>
    cases heq
    cases hdigit
  · dsimp only
    rw [hdigits]

theorem ofInt_eq_iff {value : Int} (hge : -(signBit : Int) ≤ value) (hlt : value < signBit) {n : Int64} :
    Int64.ofInt value = n ↔ n.toInt = value := by
  constructor
  · rintro rfl
    exact Int64.toInt_ofInt_of_le hge hlt
  · rintro rfl
    exact n.ofInt_toInt

/-- A text reads as an integer when it writes that integer. -/
theorem readInt64_eq_some_iff {cs : List Char} {n : Int64} : readInt64 cs = some n ↔ WritesInt64 cs n := by
  have hge : -(signBit : Int) ≤ n.toInt := n.le_toInt
  have hlt : n.toInt < signBit := n.toInt_lt
  have hpositive (body : List Char) :
      ((digits? body).filter (· ≤ signBit - 1)).map (fun value => Int64.ofInt value) = some n ↔
        IsDigits body ∧ n.toInt = digitsValue body := by
    constructor
    · intro h
      obtain ⟨_, hlifted, hvalue⟩ := Option.map_eq_some_iff.mp h
      obtain ⟨value, hfilter, ⟨⟩⟩ := Option.bind_eq_some_iff.mp hlifted
      obtain ⟨hread, hle⟩ := Option.filter_eq_some_iff.mp hfilter
      obtain ⟨hdigits, rfl⟩ := digits?_eq_some_iff.mp hread
      have hle := of_decide_eq_true hle
      exact ⟨hdigits, (ofInt_eq_iff (by omega) (by omega)).mp hvalue⟩
    · rintro ⟨hdigits, hvalue⟩
      have hle : digitsValue body ≤ signBit - 1 := by omega
      rw [digits?_eq_some_iff.mpr ⟨hdigits, rfl⟩, Option.filter_some, if_pos (decide_eq_true hle)]
      exact congrArg some ((ofInt_eq_iff (by omega) (by omega)).mpr hvalue)
  unfold WritesInt64 readInt64 readNat
  split
  · rw [signed_minus fun h => h.1.unsigned, if_pos rfl]
    constructor
    · intro h
      split at h
      · next hvalue =>
        obtain ⟨hdigits, rfl⟩ := digits?_eq_some_iff.mp hvalue
        obtain ⟨hle, hn⟩ := Option.ite_none_right_eq_some.mp h
        exact ⟨hdigits, (ofInt_eq_iff (by omega) (by omega)).mp (Option.some.inj hn)⟩
      · cases h
    · rintro ⟨hdigits, hvalue⟩
      rw [digits?_eq_some_iff.mpr ⟨hdigits, rfl⟩]
      exact Option.ite_none_right_eq_some.mpr
        ⟨by omega, congrArg some ((ofInt_eq_iff (by omega) (by omega)).mpr hvalue)⟩
  · next hminus =>
    dsimp only
    split
    · rw [signed_plus fun h => h.1.unsigned]
      exact hpositive _
    · next hplus =>
      rw [signed_none hminus hplus]
      exact hpositive _

/-! ## Doubles -/

theorem isSome_digits? {cs : List Char} : (digits? cs).isSome ↔ IsDigits cs := by
  simp only [Option.isSome_iff_exists, digits?_eq_some_iff, exists_and_left, exists_eq', and_true]

theorem isSome_readExponent {cs : List Char} : (readExponent cs).isSome ↔ IsExponent cs := by
  cases cs with
  | nil => exact iff_of_true rfl .none
  | cons e rest =>
    have hsome : IsExponent (e :: rest) ↔ (e = 'e' ∨ e = 'E') ∧ Signed (fun _ => IsDigits) rest :=
      ⟨fun | .some he hrest => ⟨he, hrest⟩, fun h => .some h.1 h.2⟩
    have hvalue (negative : Bool) (digits : List Char) :
        ((digits? digits).map fun value => if negative then -(value : Int) else value).isSome ↔ IsDigits digits := by
      rw [← isSome_digits?]
      cases digits? digits <;> rfl
    rw [hsome]
    unfold readExponent
    dsimp only
    by_cases he : e = 'e' ∨ e = 'E'
    · rw [if_pos he, and_iff_right he]
      split
      · rw [signed_minus IsDigits.unsigned]
        exact hvalue true _
      · rw [signed_plus IsDigits.unsigned]
        exact hvalue false _
      · next hminus hplus =>
        rw [signed_none hminus hplus]
        exact hvalue false _
    · rw [if_neg he]
      exact iff_of_false nofun fun h => he h.1

/-- Digits are told from what follows when that does not begin with a digit. -/
theorem takeWhile_digits {digits rest : List Char} (hdigits : ∀ c ∈ digits, c.isDigit = true)
    (hrest : ∀ c ∈ rest.head?, c.isDigit = false) : (digits ++ rest).takeWhile Char.isDigit = digits ∧
      (digits ++ rest).dropWhile Char.isDigit = rest := by
  rw [List.takeWhile_append_of_pos hdigits, List.dropWhile_append_of_pos hdigits]
  cases rest with
  | nil => exact ⟨List.append_nil _, rfl⟩
  | cons c rest =>
    have hc := hrest c rfl
    rw [List.takeWhile_cons_of_neg (by rw [hc]; exact nofun), List.dropWhile_cons_of_neg (by rw [hc]; exact nofun)]
    exact ⟨List.append_nil _, rfl⟩

theorem exists_digits (cs : List Char) : ∃ digits rest, cs = digits ++ rest ∧
    (∀ c ∈ digits, c.isDigit = true) ∧ ∀ c ∈ rest.head?, c.isDigit = false := by
  refine ⟨_, _, List.takeWhile_append_dropWhile.symm, fun c => List.mem_takeWhile_imp, fun c hc => ?_⟩
  have hhead := List.head?_dropWhile_not Char.isDigit cs
  rw [Option.mem_def.mp hc] at hhead
  exact hhead

theorem IsExponent.head {cs : List Char} (h : IsExponent cs) : ∀ c ∈ cs.head?, c.isDigit = false ∧ c ≠ '.' := by
  cases h with
  | none => exact nofun
  | some he _ =>
    rintro c ⟨⟩
    rcases he with rfl | rfl <;> decide

theorem isSome_ofParts {whole fraction exponent : List Char} :
    (if whole = [] ∧ fraction = [] then none
      else (readExponent exponent).bind fun value =>
        some (⟨digitsValue (whole ++ fraction), value - fraction.length⟩ : Decimal)).isSome ↔
      whole ++ fraction ≠ [] ∧ IsExponent exponent := by
  rw [← isSome_readExponent, Ne, List.append_eq_nil_iff]
  by_cases hempty : whole = [] ∧ fraction = []
  · rw [if_pos hempty]
    exact iff_of_false nofun fun h => h.1 hempty
  · rw [if_neg hempty, and_iff_right hempty]
    cases readExponent exponent <;> rfl

theorem isSome_readDecimal_point {whole fraction exponent : List Char} (hwhole : ∀ c ∈ whole, c.isDigit = true)
    (hfraction : ∀ c ∈ fraction, c.isDigit = true) (hexponent : ∀ c ∈ exponent.head?, c.isDigit = false) :
    (readDecimal (whole ++ '.' :: (fraction ++ exponent))).isSome ↔
      whole ++ fraction ≠ [] ∧ IsExponent exponent := by
  have hpoint : ∀ c ∈ ('.' :: (fraction ++ exponent)).head?, c.isDigit = false := by
    rintro c ⟨⟩
    rfl
  obtain ⟨htake, hdrop⟩ := takeWhile_digits hwhole hpoint
  obtain ⟨htake', hdrop'⟩ := takeWhile_digits hfraction hexponent
  simp only [readDecimal, htake, hdrop, htake', hdrop']
  exact isSome_ofParts

theorem isSome_readDecimal_whole {whole exponent : List Char} (hwhole : ∀ c ∈ whole, c.isDigit = true)
    (hexponent : ∀ c ∈ exponent.head?, c.isDigit = false ∧ c ≠ '.') :
    (readDecimal (whole ++ exponent)).isSome ↔ whole ≠ [] ∧ IsExponent exponent := by
  obtain ⟨htake, hdrop⟩ := takeWhile_digits hwhole fun c hc => (hexponent c hc).1
  have hparts := @isSome_ofParts whole [] exponent
  rw [List.append_nil] at hparts
  unfold readDecimal
  dsimp only
  rw [htake, hdrop]
  split
  · exact absurd rfl (hexponent '.' rfl).2
  · rw [List.append_nil]
    exact hparts

theorem isSome_readDecimal {cs : List Char} : (readDecimal cs).isSome ↔ IsDecimal cs := by
  constructor
  · intro h
    obtain ⟨whole, rest, rfl, hwhole, hrest⟩ := exists_digits cs
    by_cases hpoint : ∃ tail, rest = '.' :: tail
    · obtain ⟨tail, rfl⟩ := hpoint
      obtain ⟨fraction, exponent, rfl, hfraction, hexponent⟩ := exists_digits tail
      obtain ⟨hne, hexponent⟩ := (isSome_readDecimal_point hwhole hfraction hexponent).mp h
      exact .point ⟨hne, fun c hc => (List.mem_append.mp hc).elim (hwhole c) (hfraction c)⟩ hexponent
    · have hhead : ∀ c ∈ rest.head?, c.isDigit = false ∧ c ≠ '.' := by
        refine fun c hc => ⟨hrest c hc, ?_⟩
        rintro rfl
        exact hpoint ⟨_, List.eq_cons_of_mem_head? hc⟩
      obtain ⟨hne, hexponent⟩ := (isSome_readDecimal_whole hwhole hhead).mp h
      exact .whole ⟨hne, hwhole⟩ hexponent
  · rintro (⟨hdigits, hexponent⟩ | ⟨hdigits, hexponent⟩)
    · exact (isSome_readDecimal_whole hdigits.2 hexponent.head).mpr ⟨hdigits.1, hexponent⟩
    · exact (isSome_readDecimal_point (fun c hc => hdigits.2 c (List.mem_append_left _ hc))
        (fun c hc => hdigits.2 c (List.mem_append_right _ hc)) fun c hc => (hexponent.head c hc).1).mpr
          ⟨hdigits.1, hexponent⟩

theorem IsDecimal.unsigned {cs : List Char} (h : IsDecimal cs) : Unsigned cs := by
  cases h with
  | whole hdigits _ =>
    obtain ⟨c, digits, rfl⟩ := List.exists_cons_of_ne_nil hdigits.1
    exact hdigits.unsigned
  | @point whole _ _ hdigits _ =>
    cases whole with
    | nil => exact unsigned_cons (by decide) (by decide)
    | cons c whole => exact hdigits.unsigned

theorem IsWord.unsigned {cs : List Char} (h : IsWord cs) : Unsigned cs := by
  cases cs with
  | nil => exact ⟨nofun, nofun⟩
  | cons c cs =>
    have hhead : c.toLower ∈ ['i', 'n'] := by
      simp only [IsWord, List.mem_cons, List.not_mem_nil, or_false, String.ofList_eq] at h
      rcases h with h | h | h <;>
        (rw [(List.cons.inj h).1]; decide)
    refine unsigned_cons ?_ ?_ <;>
      (rintro rfl; exact absurd hhead (by decide))

/-- A text reads as a double when it writes one. -/
theorem isSome_readFloat {cs : List Char} : (readFloat cs).isSome ↔ WritesDouble cs := by
  have hmagnitude (negative : Bool) (body : List Char) :
      ((if String.ofList (body.map Char.toLower) = "inf" ∨ String.ofList (body.map Char.toLower) = "infinity" then
          some (Float.ofBits 0x7FF0000000000000)
        else if String.ofList (body.map Char.toLower) = "nan" then some (Float.ofBits 0x7FF8000000000000)
        else (readDecimal body).map Decimal.toFloat).map fun x => if negative then -x else x).isSome ↔
        IsWord body ∨ IsDecimal body := by
    have hword : IsWord body ↔ (String.ofList (body.map Char.toLower) = "inf" ∨
        String.ofList (body.map Char.toLower) = "infinity") ∨ String.ofList (body.map Char.toLower) = "nan" := by
      simp only [IsWord, List.mem_cons, List.not_mem_nil, or_false, or_assoc]
    rw [Option.isSome_map, hword]
    split_ifs with hinfinite hnan
    · exact iff_of_true rfl (.inl (.inl hinfinite))
    · exact iff_of_true rfl (.inl (.inr hnan))
    · rw [Option.isSome_map, isSome_readDecimal]
      exact (or_iff_right fun h => h.elim hinfinite hnan).symm
  have hunsigned {body : List Char} (h : IsWord body ∨ IsDecimal body) : Unsigned body :=
    h.elim IsWord.unsigned IsDecimal.unsigned
  unfold WritesDouble readFloat
  dsimp only
  split
  · rw [signed_minus hunsigned]
    exact hmagnitude true _
  · rw [signed_plus hunsigned]
    exact hmagnitude false _
  · next hminus hplus =>
    rw [signed_none hminus hplus]
    exact hmagnitude false _

end ModelText.Number
