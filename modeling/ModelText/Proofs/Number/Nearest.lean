import Mathlib.Algebra.Order.Ring.Nat
import ModelText.Number.Rounding

/-!
# Numbers rounded to 53 binary digits

Rounding keeps the 53 digits of a number in front, and a half goes to the even neighbour. Rounding keeps the order of
numbers, and numbers up to `2 ^ 53` are kept as they are.
-/

namespace ModelText.Number

theorem roundDiv_mul_self (k : Nat) {d : Nat} (hd : 0 < d) : roundDiv (k * d) d = k := by
  unfold roundDiv
  simp [Nat.mul_div_cancel _ hd, hd]

theorem roundDiv_mono {m n : Nat} (h : m ≤ n) {d : Nat} (hd : 0 < d) : roundDiv m d ≤ roundDiv n d := by
  have hm := Nat.div_add_mod m d
  have hn := Nat.div_add_mod n d
  have hmlt := Nat.mod_lt m hd
  have hnlt := Nat.mod_lt n hd
  have hquot := Nat.div_le_div_right (c := d) h
  unfold roundDiv
  by_cases hsame : m / d = n / d
  · rw [hsame] at hm ⊢
    have hrest : m % d ≤ n % d := by omega
    simp only
    split_ifs <;> omega
  · have hless : m / d + 1 ≤ n / d := by omega
    simp only
    split_ifs <;> omega

theorem roundDiv_mul_mul (n d : Nat) {c : Nat} (hc : 0 < c) : roundDiv (n * c) (d * c) = roundDiv n d := by
  unfold roundDiv
  simp only [Nat.mul_div_mul_right _ _ hc, Nat.mul_mod_mul_right, ← Nat.mul_assoc,
    Nat.mul_lt_mul_right hc]

/-! ## Natural numbers -/

/-- A natural number rounded to 53 binary digits; a half goes to the even neighbour. -/
def nearestNat (n : Nat) : Nat := roundDiv n (2 ^ (n.log2 - 52)) * 2 ^ (n.log2 - 52)

/-- The 53 digits of a positive number that are left when it is rounded; with a carry they are one more. -/
def significand (n : Nat) : Nat := roundDiv (n * 2 ^ 52) (2 ^ n.log2)

theorem nearestNat_of_lt {n : Nat} (h : n < 2 ^ 53) : nearestNat n = n := by
  have hlog : n.log2 - 52 = 0 := by
    by_cases hzero : n = 0
    · rw [hzero]
      rfl
    · have := (Nat.log2_lt hzero).mpr h
      omega
  rw [nearestNat, hlog, Nat.pow_zero, Nat.mul_one]
  simpa using roundDiv_mul_self n Nat.one_pos

/-- The significand can be found on any finer scale. -/
theorem roundDiv_scaled (n k shift : Nat) (h : k + n.log2 = shift + 52) :
    roundDiv (n * 2 ^ k) (2 ^ shift) = significand n := by
  rw [significand, ← roundDiv_mul_mul (n * 2 ^ k) _ (Nat.two_pow_pos 52),
    ← roundDiv_mul_mul (n * 2 ^ 52) _ (Nat.two_pow_pos k), Nat.mul_assoc, Nat.mul_assoc, ← Nat.pow_add,
    ← Nat.pow_add, ← Nat.pow_add, ← Nat.pow_add, Nat.add_comm 52 k, Nat.add_comm n.log2 k, h]

theorem significand_mul (n : Nat) : significand n * 2 ^ n.log2 = nearestNat n * 2 ^ 52 := by
  rw [nearestNat]
  rcases Nat.le_total 52 n.log2 with hlarge | hsmall
  · have hshift : n.log2 - 52 + 52 = n.log2 := by omega
    have hscaled := roundDiv_scaled n 0 (n.log2 - 52) (by omega)
    rw [Nat.pow_zero, Nat.mul_one] at hscaled
    rw [hscaled, Nat.mul_assoc, ← Nat.pow_add, hshift]
  · have hshift : n.log2 - 52 = 0 := by omega
    have hscaled := roundDiv_scaled n (52 - n.log2) 0 (by omega)
    have hwhole (m : Nat) : roundDiv m 1 = m := by simpa using roundDiv_mul_self m Nat.one_pos
    rw [Nat.pow_zero, hwhole] at hscaled
    have hexponent : 52 - n.log2 + n.log2 = 52 := by omega
    rw [hshift, Nat.pow_zero, hwhole, Nat.mul_one, ← hscaled, Nat.mul_assoc, ← Nat.pow_add, hexponent]

theorem le_significand {n : Nat} (h : 0 < n) : 2 ^ 52 ≤ significand n := by
  have hlog := Nat.mul_le_mul_right (2 ^ 52) (Nat.log2_self_le (Nat.ne_of_gt h))
  have hround := roundDiv_mono hlog (Nat.two_pow_pos n.log2)
  rwa [Nat.mul_comm, roundDiv_mul_self _ (Nat.two_pow_pos n.log2)] at hround

theorem significand_le (n : Nat) : significand n ≤ 2 ^ 53 := by
  have hlog := Nat.mul_le_mul_right (2 ^ 52) (Nat.le_of_lt (Nat.lt_log2_self (n := n)))
  have hround := roundDiv_mono hlog (Nat.two_pow_pos n.log2)
  have hpower : 2 ^ (n.log2 + 1) * 2 ^ 52 = 2 ^ 53 * 2 ^ n.log2 := by
    rw [← Nat.pow_add, ← Nat.pow_add]
    congr 1
    omega
  rwa [hpower, roundDiv_mul_self _ (Nat.two_pow_pos n.log2)] at hround

theorem log2_le_nearestNat {n : Nat} (h : 0 < n) : 2 ^ n.log2 ≤ nearestNat n := by
  have hle := Nat.mul_le_mul_right (2 ^ n.log2) (le_significand h)
  rw [significand_mul, Nat.mul_comm] at hle
  exact Nat.le_of_mul_le_mul_right hle (Nat.two_pow_pos 52)

theorem nearestNat_le_log2 (n : Nat) : nearestNat n ≤ 2 ^ (n.log2 + 1) := by
  have hle := Nat.mul_le_mul_right (2 ^ n.log2) (significand_le n)
  have hpower : 2 ^ 53 * 2 ^ n.log2 = 2 ^ (n.log2 + 1) * 2 ^ 52 := by
    rw [← Nat.pow_add, ← Nat.pow_add]
    congr 1
    omega
  rw [significand_mul, hpower] at hle
  exact Nat.le_of_mul_le_mul_right hle (Nat.two_pow_pos 52)

theorem nearestNat_mono {m n : Nat} (h : m ≤ n) : nearestNat m ≤ nearestNat n := by
  by_cases hzero : m = 0
  · subst hzero
    exact Nat.zero_le _
  have hlog : m.log2 ≤ n.log2 := (Nat.le_log2 (by omega)).mpr (Nat.le_trans (Nat.log2_self_le hzero) h)
  rcases Nat.lt_or_eq_of_le hlog with hless | hsame
  · calc nearestNat m ≤ 2 ^ (m.log2 + 1) := nearestNat_le_log2 m
      _ ≤ 2 ^ n.log2 := Nat.pow_le_pow_right (by decide) hless
      _ ≤ nearestNat n := log2_le_nearestNat (by omega)
  · rw [nearestNat, nearestNat, hsame]
    exact Nat.mul_le_mul_right _ (roundDiv_mono h (Nat.two_pow_pos _))

/-! ## Integers -/

/-- An integer rounded to 53 binary digits; a half goes to the even neighbour. -/
def nearest (n : Int) : Int := n.sign * nearestNat n.natAbs

theorem nearest_natCast (n : Nat) : nearest n = nearestNat n := by
  rcases Nat.eq_zero_or_pos n with rfl | hpos
  · rfl
  · rw [nearest, Int.sign_eq_one_of_pos (by omega), Int.one_mul, Int.natAbs_natCast]

theorem nearest_neg (n : Int) : nearest (-n) = -nearest n := by
  rw [nearest, nearest, Int.sign_neg, Int.natAbs_neg, Int.neg_mul]

theorem nearest_mono {m n : Int} (h : m ≤ n) : nearest m ≤ nearest n := by
  obtain ⟨k, rfl | rfl⟩ := m.eq_nat_or_neg <;> obtain ⟨l, rfl | rfl⟩ := n.eq_nat_or_neg <;>
    simp only [nearest_neg, nearest_natCast]
  · have := nearestNat_mono (show k ≤ l by omega)
    omega
  · have hk : k = 0 := by omega
    have hl : l = 0 := by omega
    subst hk hl
    decide
  · omega
  · have := nearestNat_mono (show l ≤ k by omega)
    omega

theorem nearest_eq_self {n : Int} (h : n.natAbs ≤ 2 ^ 53) : nearest n = n := by
  have hnat : nearestNat n.natAbs = n.natAbs := by
    rcases Nat.lt_or_eq_of_le h with hless | hequal
    · exact nearestNat_of_lt hless
    · rw [hequal]
      decide
  rw [nearest, hnat, Int.sign_mul_natAbs]

end ModelText.Number
