import ModelText.Dialect
import ModelText.Proofs.Source.Between

/-!
# String literals in a range

A range is read from left to right. A string literal goes from a quote to the next quote that is not escaped, and a
quote that nothing closes hides all that follows. Which bytes are left is decided by one pass over the bytes, and the
search for the end of a literal, which jumps over what a backslash escapes, finds the same ends.
-/

namespace ModelText.Source

variable {src : Source} {start stop offset opening closing k : Nat}

/-! ## String literals -/

/-- The byte of a quote. -/
def quoteMark : UInt8 := 0x22

/-- The byte of a backslash. -/
def backslash : UInt8 := 0x5C

/-- Whether a byte is escaped in the literal that begins at `opening`: in front of it stands a backslash of the
literal that is not escaped itself. -/
def isEscaped (src : Source) (opening : Nat) : Nat → Bool
  | 0 => false
  | k + 1 => opening < k && src.byte? k == some backslash && !src.isEscaped opening k

/-- No quote in front of `stop` ends the literal that begins at `opening`: they are all escaped. -/
def Unclosed (src : Source) (opening stop : Nat) : Prop :=
  ∀ k, opening < k → k < stop → src.byte? k = some quoteMark → src.isEscaped opening k = true

/-- A string literal: from a quote to the next quote that is not escaped. -/
structure StringLiteral (src : Source) (opening closing : Nat) : Prop where
  opens : src.byte? opening = some quoteMark
  lt : opening < closing
  closes : src.byte? closing = some quoteMark
  unescaped : src.isEscaped opening closing = false
  unclosed : src.Unclosed opening closing

/-- Reading from `start` on, from left to right, comes by an offset outside of string literals. A literal is passed
as a whole, and nothing leads past a quote that no other quote closes. -/
inductive Outside (src : Source) (start : Nat) : Nat → Prop
  | start : src.Outside start start
  | next {k : Nat} (outside : src.Outside start k) (plain : src.byte? k ≠ some quoteMark) :
    src.Outside start (k + 1)
  | behind {opening closing : Nat} (outside : src.Outside start opening)
    (literal : src.StringLiteral opening closing) : src.Outside start (closing + 1)

/-- The mask leaves a byte: it stands outside of string literals and does not begin one. -/
def Shown (src : Source) (start k : Nat) : Prop := src.Outside start k ∧ src.byte? k ≠ some quoteMark

theorem Unclosed.mono (h : src.Unclosed opening stop) (hle : k ≤ stop) : src.Unclosed opening k :=
  fun j hlt hj => h j hlt (Nat.lt_of_lt_of_le hj hle)

theorem unclosed_succ_self : src.Unclosed opening (opening + 1) :=
  fun _ hlt hle => absurd hlt (Nat.not_lt.mpr (Nat.le_of_lt_succ hle))

/-- A literal stays open behind a byte that is no quote, or an escaped one. -/
theorem Unclosed.succ (h : src.Unclosed opening k)
    (hbyte : src.byte? k = some quoteMark → src.isEscaped opening k = true) : src.Unclosed opening (k + 1) := by
  intro j hlt hj hquote
  rcases Nat.lt_or_eq_of_le (Nat.le_of_lt_succ hj) with hbefore | rfl
  · exact h j hlt hbefore hquote
  · exact hbyte hquote

theorem isEscaped_succ (hlt : opening < k) :
    src.isEscaped opening (k + 1) = (src.byte? k == some backslash && !src.isEscaped opening k) := by
  rw [isEscaped, decide_eq_true hlt, Bool.true_and]

theorem isEscaped_succ_self : src.isEscaped opening (opening + 1) = false := by
  rw [isEscaped, decide_eq_false (Nat.lt_irrefl _), Bool.false_and, Bool.false_and]

/-! ## Reading byte by byte

Whether an offset is outside of string literals can be decided: one pass over the bytes in front of it tells.
-/

/-- Where a byte stands. -/
inductive Standing where
  | outside
  | inside
  | escaped
  deriving DecidableEq, Repr

/-- Where the next byte stands. -/
def Standing.next : Standing → Option UInt8 → Standing
  | .outside, b => if b = some quoteMark then .inside else .outside
  | .inside, b => if b = some quoteMark then .outside else if b = some backslash then .escaped else .inside
  | .escaped, _ => .inside

/-- Where the byte at an offset stands when reading begins at `start`. -/
def standing (src : Source) (start : Nat) : Nat → Standing
  | 0 => .outside
  | k + 1 => if k < start then .outside else (src.standing start k).next (src.byte? k)

theorem standing_self : src.standing start start = .outside := by
  cases start with
  | zero => rfl
  | succ start => rw [standing, if_pos (Nat.lt_succ_self _)]

theorem standing_succ (hle : start ≤ k) :
    src.standing start (k + 1) = (src.standing start k).next (src.byte? k) := by
  rw [standing, if_neg (Nat.not_lt.mpr hle)]

/-- As long as a literal is open, what follows its opening quote stands inside. -/
theorem standing_of_unclosed (hle : start ≤ opening) (hopening : src.standing start opening = .outside)
    (hquote : src.byte? opening = some quoteMark) (hlt : opening < k) (hunclosed : src.Unclosed opening k) :
    src.standing start k = if src.isEscaped opening k then .escaped else .inside := by
  induction k with
  | zero => omega
  | succ k ih =>
    rw [standing_succ (by omega)]
    by_cases hfirst : opening = k
    · subst hfirst
      rw [hopening, isEscaped_succ_self]
      simp [Standing.next, hquote]
    · have hbehind : opening < k := by omega
      rw [ih hbehind (hunclosed.mono (Nat.le_succ k)), isEscaped_succ hbehind]
      cases hescaped : src.isEscaped opening k with
      | true => simp [Standing.next]
      | false =>
        have hplain : src.byte? k ≠ some quoteMark := by
          intro hmark
          have := hunclosed k hbehind (Nat.lt_succ_self k) hmark
          simp [hescaped] at this
        by_cases hslash : src.byte? k = some backslash
        · simp [Standing.next, hslash, backslash, quoteMark]
        · simp [Standing.next, hplain, hslash]

theorem Outside.standing_eq (h : src.Outside start k) : start ≤ k ∧ src.standing start k = .outside := by
  induction h with
  | start => exact ⟨Nat.le_refl _, standing_self⟩
  | next _ hplain ih =>
    refine ⟨Nat.le_succ_of_le ih.1, ?_⟩
    rw [standing_succ ih.1, ih.2, Standing.next, if_neg hplain]
  | behind _ hliteral ih =>
    have hlt := hliteral.lt
    refine ⟨by omega, ?_⟩
    rw [standing_succ (by omega), standing_of_unclosed ih.1 ih.2 hliteral.opens hlt hliteral.unclosed,
      hliteral.unescaped, hliteral.closes]
    rfl

/-- Behind a quote that is outside of string literals, nothing is outside until the literal closes. -/
theorem Outside.not_outside (h : src.Outside start opening) (hquote : src.byte? opening = some quoteMark)
    (hlt : opening < k) (hunclosed : src.Unclosed opening k) : ¬ src.Outside start k := by
  intro hk
  have hinside := standing_of_unclosed h.standing_eq.1 h.standing_eq.2 hquote hlt hunclosed
  rw [hk.standing_eq.2] at hinside
  split at hinside <;> cases hinside

/-- An offset is outside of string literals or in one that is still open. -/
theorem outside_or_unclosed (hle : start ≤ k) :
    src.Outside start k ∨ ∃ opening, src.Outside start opening ∧ src.byte? opening = some quoteMark ∧
      opening < k ∧ src.Unclosed opening k := by
  induction k with
  | zero =>
    obtain rfl := Nat.le_zero.mp hle
    exact Or.inl .start
  | succ k ih =>
    by_cases hfirst : start = k + 1
    · subst hfirst
      exact Or.inl .start
    rcases ih (by omega) with houtside | ⟨opening, houtside, hquote, hlt, hunclosed⟩
    · by_cases hmark : src.byte? k = some quoteMark
      · exact Or.inr ⟨k, houtside, hmark, Nat.lt_succ_self k, unclosed_succ_self⟩
      · exact Or.inl (houtside.next hmark)
    · by_cases hcloses : src.byte? k = some quoteMark ∧ src.isEscaped opening k = false
      · exact Or.inl (houtside.behind ⟨hquote, hlt, hcloses.1, hcloses.2, hunclosed⟩)
      · refine Or.inr ⟨opening, houtside, hquote, Nat.lt_succ_of_lt hlt, hunclosed.succ fun hmark => ?_⟩
        simpa [hmark] using hcloses

theorem outside_iff : src.Outside start k ↔ start ≤ k ∧ src.standing start k = .outside := by
  constructor
  · exact Outside.standing_eq
  · rintro ⟨hle, hstanding⟩
    rcases outside_or_unclosed hle with houtside | ⟨opening, houtside, hquote, hlt, hunclosed⟩
    · exact houtside
    · have hinside := standing_of_unclosed houtside.standing_eq.1 houtside.standing_eq.2 hquote hlt hunclosed
      rw [hstanding] at hinside
      split at hinside <;> cases hinside

instance : Decidable (src.Outside start k) := decidable_of_iff _ outside_iff.symm

instance : Decidable (src.Shown start k) := inferInstanceAs (Decidable (_ ∧ _))

/-! ## Ends of literals -/

/-- The end of a literal is looked for byte by byte, two at a backslash. The search starts at bytes that are not
escaped, and so it finds the next quote that is not. -/
theorem quoteEnd_spec (hstop : stop ≤ src.size) (hlt : opening < offset) (hunclosed : src.Unclosed opening offset)
    (hunescaped : src.isEscaped opening offset = false) :
    (∃ closing, opening < closing ∧ closing < stop ∧ src.byte? closing = some quoteMark ∧
        src.isEscaped opening closing = false ∧ src.Unclosed opening closing ∧
        src.quoteEnd "\"" stop offset = some ⟨closing, closing + 1⟩) ∨
      src.Unclosed opening stop ∧ src.quoteEnd "\"" stop offset = none := by
  induction hleft : stop - offset using Nat.strongRecOn generalizing offset with
  | ind left ih =>
    by_cases hend : stop ≤ offset
    · exact Or.inr ⟨hunclosed.mono hend, quoteEndFrom_of_le hend _⟩
    have hbytes : tokenBytes "\"" = [quoteMark] := by decide
    have htoken : src.tokenAt offset "\"" stop = true ↔ src.byte? offset = some quoteMark := by
      have hfits : offset + 1 ≤ stop := by omega
      simp [tokenAt, hbytes, holds, hfits]
    by_cases hslash : src.byte? offset = some backslash
    · -- The byte behind the backslash is escaped, and the one behind that is not.
      have hescaped : src.isEscaped opening (offset + 1) = true := by
        rw [isEscaped_succ hlt, hslash, hunescaped]
        decide
      have hafter : src.isEscaped opening (offset + 2) = false := by
        rw [isEscaped_succ (Nat.lt_succ_of_lt hlt), hescaped, Bool.not_true, Bool.and_false]
      have hopen : src.Unclosed opening (offset + 2) := by
        refine (hunclosed.succ fun hmark => ?_).succ fun _ => hescaped
        rw [hslash] at hmark
        exact absurd hmark (by decide)
      rw [quoteEnd_escaped hstop hslash]
      exact ih (stop - (offset + 2)) (by omega) (by omega) hopen hafter rfl
    · by_cases hmark : src.byte? offset = some quoteMark
      · exact Or.inl ⟨offset, hlt, by omega, hmark, hunescaped, hunclosed, quoteEnd_found hslash (htoken.mpr hmark)⟩
      · have hnone : src.tokenAt offset "\"" stop = false := Bool.eq_false_iff.mpr (mt htoken.mp hmark)
        have hplain : src.isEscaped opening (offset + 1) = false := by
          rw [isEscaped_succ hlt, beq_false_of_ne hslash, Bool.false_and]
        rw [quoteEnd_visible hstop hslash hnone]
        exact ih (stop - (offset + 1)) (by omega) (by omega) (hunclosed.succ fun h => absurd h hmark) hplain rfl

end ModelText.Source
