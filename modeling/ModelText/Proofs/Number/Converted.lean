import Mathlib
import ModelText.Proofs.Number.Comparison
import ModelText.Proofs.Number.Nearest

/-!
# Integers as doubles

An integer is converted by shifting its digits until 53 are left; the digits shifted out say how to round. The double
that comes out stands for the integer rounded to 53 binary digits, so two converted integers are compared like the
rounded ones.
-/

namespace ModelText.Number

open Float.Model (Format UnpackedFloat totalExponent)
open Float.Model.UnpackedFloat

/-! ## Shifted mantissas -/

/-- Whether a mantissa with its two further bits is what is left of a number that was shifted: the bits say
whether the rest is at least a half, and whether it is neither zero nor a half. -/
structure Shifted (number shift : Nat) (m : ExtendedMantissa) : Prop where
  mantissa : m.mantissa = number / 2 ^ shift
  roundBit_iff : m.roundBit = true ↔ 2 ^ shift ≤ 2 * (number % 2 ^ shift)
  stickyBit_iff : m.stickyBit = true ↔ number % 2 ^ shift ≠ 0 ∧ 2 * (number % 2 ^ shift) ≠ 2 ^ shift

theorem Shifted.next {number shift : Nat} {m : ExtendedMantissa} (h : Shifted number shift m) :
    Shifted number (shift + 1) m.shiftRightOne := by
  have hmod : number % 2 ^ (shift + 1) = number % 2 ^ shift + 2 ^ shift * (number / 2 ^ shift % 2) := Nat.mod_pow_succ
  have hrest := Nat.mod_lt number (Nat.two_pow_pos shift)
  have hpower : 2 ^ (shift + 1) = 2 * 2 ^ shift := by rw [Nat.pow_succ, Nat.mul_comm]
  have hbit := Nat.mod_two_eq_zero_or_one (number / 2 ^ shift)
  have hmantissa : m.shiftRightOne.mantissa = number / 2 ^ (shift + 1) := by
    rw [ExtendedMantissa.shiftRightOne, h.mantissa, Nat.div_div_eq_div_mul, Nat.pow_succ]
  have hround : m.shiftRightOne.roundBit = true ↔ number / 2 ^ shift % 2 ≠ 0 := by
    rw [ExtendedMantissa.shiftRightOne, h.mantissa]
    exact bne_iff_ne
  have hsticky : m.shiftRightOne.stickyBit = true ↔ number % 2 ^ shift ≠ 0 := by
    rw [ExtendedMantissa.shiftRightOne, Bool.or_eq_true, h.roundBit_iff, h.stickyBit_iff]
    omega
  refine ⟨hmantissa, hround.trans ?_, hsticky.trans ?_⟩
  all_goals
    rw [hmod, hpower]
    rcases hbit with hzero | hone
    · rw [hzero, Nat.mul_zero]
      omega
    · rw [hone, Nat.mul_one]
      omega

theorem shifted_shiftRight (number shift : Nat) :
    Shifted number shift (ExtendedMantissa.ofMantissaAndAccuracy number .exact >>> shift) := by
  change Shifted number shift (shift.repeat ExtendedMantissa.shiftRightOne _)
  induction shift with
  | zero =>
    refine ⟨(Nat.div_one _).symm, ?_, ?_⟩ <;>
      simp [Nat.repeat, Nat.mod_one, ExtendedMantissa.ofMantissaAndAccuracy]
  | succ shift ih => exact ih.next

theorem Shifted.roundedMantissa {number shift : Nat} {m : ExtendedMantissa} (h : Shifted number shift m) :
    m.roundedMantissa = roundDiv number (2 ^ shift) := by
  obtain ⟨mantissa, roundBit, stickyBit⟩ := m
  obtain ⟨hmantissa, hround, hsticky⟩ := h
  have hrest := Nat.mod_lt number (Nat.two_pow_pos shift)
  simp only at hmantissa hround hsticky
  rw [ExtendedMantissa.roundedMantissa, roundDiv]
  simp only [hmantissa]
  cases roundBit <;> cases stickyBit <;>
    simp only [ExtendedMantissa.accuracy, Accuracy.roundToNearestEven, Bool.false_eq_true, false_iff, true_iff] at * <;>
    split_ifs <;> omega

/-! ## Parts of doubles -/

theorem log2_eq_of_bounds {m k : Nat} (hlow : 2 ^ k ≤ m) (hhigh : m < 2 ^ (k + 1)) : m.log2 = k :=
  (Nat.log2_eq_iff (by have := Nat.two_pow_pos k; omega)).mpr ⟨hlow, hhigh⟩

theorem log2_mul_two_pow {n : Nat} (hpos : 0 < n) (k : Nat) : (n * 2 ^ k).log2 = n.log2 + k := by
  refine log2_eq_of_bounds ?_ ?_
  · rw [Nat.pow_add]
    exact Nat.mul_le_mul_right _ (Nat.log2_self_le (by omega))
  · rw [Nat.add_right_comm, Nat.pow_add]
    exact Nat.mul_lt_mul_of_pos_right Nat.lt_log2_self (Nat.two_pow_pos k)

theorem targetExponent_eq {m k : Nat} (hlog : m.log2 = k) {e : Int} (he : -1074 ≤ e + k - 52) :
    Format.binary64.targetExponent (totalExponent m e) = e + k - 52 := by
  simp only [Format.targetExponent, totalExponent, hlog, Format.mantissaBits, Format.minExponent]
  omega

theorem unpackSign_packComponents (s : Sign) (exponent : BitVec 11) (mantissa : BitVec 52) :
    unpackSign (packComponents Format.binary64 s exponent mantissa) = s.toBitVec := by
  change (s.toBitVec ++ exponent ++ mantissa).extractLsb' 63 1 = s.toBitVec
  rw [BitVec.extractLsb'_append_eq_of_le (by decide), BitVec.extractLsb'_append_eq_of_le (by decide)]
  cases s <;> rfl

/-- Packing keeps the parts of a normal double. -/
theorem unpack_pack_normal (s : Sign) {m : Nat} {e : Int} (hlow : 2 ^ 52 ≤ m) (hhigh : m < 2 ^ 53)
    (hmin : -1074 ≤ e) (hmax : e ≤ 971) (hpos : 0 < m) :
    (Float.Model.pack (.finite s m e hpos)).unpack = .finite s m e hpos := by
  change unpack Format.binary64 (UnpackedFloat.pack Format.binary64 (.finite s m e hpos)) = _
  have hbias : e + Format.binary64.exponentBias + (Format.binary64.mantissaBitsWithoutImplicit : Nat) = e + 1075 := by
    change e + 1023 + 52 = _
    omega
  have hsmall : ¬ 2 ^ Format.binary64.exponentBits ≤ (e + 1075).toNat + 1 := by
    change ¬ 2048 ≤ _
    omega
  have hlog : m.log2 + 1 = Format.binary64.mantissaBits := by rw [log2_eq_of_bounds hlow hhigh]; rfl
  have hexponent : (BitVec.ofNat 11 (e + 1075).toNat).toNat = (e + 1075).toNat := by
    rw [BitVec.toNat_ofNat]
    omega
  have hne {b : BitVec 11} (hb : b.toNat = 0 ∨ b.toNat = 2047) : BitVec.ofNat 11 (e + 1075).toNat ≠ b := by
    rintro rfl
    omega
  have hleading : (1#1 ++ BitVec.ofNat 52 m).toNat = m := by
    rw [BitVec.toNat_append, BitVec.toNat_ofNat, BitVec.toNat_ofNat, Nat.shiftLeft_eq, Nat.or_comm]
    change m % 2 ^ 52 ||| 2 ^ 52 = m
    rw [Nat.or_two_pow_eq_add_of_lt (Nat.mod_lt m (Nat.two_pow_pos 52))]
    omega
  have hsign : Sign.ofBitVec s.toBitVec = s := by cases s <;> rfl
  rw [UnpackedFloat.pack]
  simp only [hbias, if_neg hsmall, if_pos hlog]
  rw [unpack]
  simp only [unpackMantissa_packComponents, unpackExponent_packComponents]
  rw [if_neg (hne (.inr rfl)), if_neg (hne (.inl rfl)), unpackSign_packComponents, UnpackedFloat.finite.injEq, hsign,
    hleading, hexponent]
  refine ⟨rfl, rfl, ?_⟩
  change ((e + 1075).toNat : Int) - (1023 + 52) = e
  omega

/-- What the parts of a double say when it is the one nearest to a positive number. -/
structure PartsOf (n m : Nat) (e : Int) : Prop where
  low : 2 ^ 52 ≤ m
  high : m < 2 ^ 53
  min : -52 ≤ e
  max : e ≤ n.log2
  value : m * 2 ^ (e + 52).toNat = nearestNat n * 2 ^ 52

theorem shiftToTargetExponent_eq (m : Nat) (e : Int) {shift : Nat}
    (hlog : m.log2 = shift + 52) (he : -1074 ≤ e + shift) :
    shiftToTargetExponent Format.binary64 m e .exact =
      (ExtendedMantissa.ofMantissaAndAccuracy m .exact >>> shift, e + shift) := by
  have htarget : Format.binary64.targetExponent (totalExponent m e) = e + shift := by
    rw [targetExponent_eq hlog (by omega)]
    omega
  have hshift : (e + shift - e).toNat = shift := by omega
  rw [shiftToTargetExponent, htarget, shiftToExponent]
  simp only [hshift]

/-- Rounding shifts twice, since rounding up may carry into one more digit. -/
theorem roundWithAccuracy_of_shifts (shift : Nat) {s : Sign} {number rounded : Nat} {e e' : Int} {m : ExtendedMantissa}
    (hfirst : shiftToTargetExponent Format.binary64 number e .exact = (m, e'))
    (hrounded : m.roundedMantissa = rounded) (hlog : rounded.log2 = shift + 52) (he : -1074 ≤ e' + shift)
    (hpos : 0 < rounded / 2 ^ shift) :
    roundWithAccuracy Format.binary64 s number e .exact = .finite s (rounded / 2 ^ shift) (e' + shift) hpos := by
  have hmantissa := (shifted_shiftRight rounded shift).mantissa
  rw [roundWithAccuracy]
  simp only [hfirst, hrounded, shiftToTargetExponent_eq rounded e' hlog he, hmantissa]
  exact dif_neg (Nat.ne_of_gt hpos)

/-- Rounding gives the parts of the nearest double, on whatever scale the number is written. -/
theorem exists_roundWithAccuracy (s : Sign) {n k : Nat} (hpos : 0 < n) (hk : 52 ≤ k + n.log2) :
    ∃ m e hm, roundWithAccuracy Format.binary64 s (n * 2 ^ k) (-k) .exact = .finite s m e hm ∧ PartsOf n m e := by
  obtain ⟨shift, hshift⟩ : ∃ shift, k + n.log2 = shift + 52 := ⟨k + n.log2 - 52, by omega⟩
  have hlog : (n * 2 ^ k).log2 = shift + 52 := (log2_mul_two_pow hpos k).trans (by omega)
  have hfirst := shiftToTargetExponent_eq (n * 2 ^ k) (-k) hlog (by omega)
  have hrounded := (shifted_shiftRight (n * 2 ^ k) shift).roundedMantissa
  rw [roundDiv_scaled n k shift hshift] at hrounded
  rw [show -(k : Int) + shift = n.log2 - 52 by omega] at hfirst
  have hlow := le_significand hpos
  have hvalue := significand_mul n
  -- With a carry the digits are a power of two, and the second shift takes the one digit too many away.
  rcases Nat.lt_or_eq_of_le (significand_le n) with hhigh | hcarry
  · have hdigits : significand n / 2 ^ 0 = significand n := Nat.div_one _
    refine ⟨_, _, _, roundWithAccuracy_of_shifts 0 hfirst hrounded
      (log2_eq_of_bounds hlow hhigh) (by omega) (by omega), ?_⟩
    rw [hdigits]
    refine ⟨hlow, hhigh, by omega, by omega, ?_⟩
    rw [show ((n.log2 : Int) - 52 + (0 : Nat) + 52).toNat = n.log2 by omega, hvalue]
  · have hdigits : significand n / 2 ^ 1 = 2 ^ 52 := by rw [hcarry, Nat.pow_div (by decide) (by decide)]
    refine ⟨_, _, _, roundWithAccuracy_of_shifts 1 hfirst hrounded
      (by rw [hcarry, Nat.log2_two_pow]) (by omega) (by omega), ?_⟩
    rw [hdigits]
    refine ⟨Nat.le_refl _, by decide, by omega, by omega, ?_⟩
    rw [show ((n.log2 : Int) - 52 + (1 : Nat) + 52).toNat = n.log2 + 1 by omega, ← hvalue, hcarry, ← Nat.pow_add,
      ← Nat.pow_add, show 52 + (n.log2 + 1) = 53 + n.log2 by omega]

/-- Of a number with at most 53 digits, the parts are the number itself. -/
theorem PartsOf.mantissa_eq {n m : Nat} {e : Int} (h : PartsOf n m e) (hsmall : n < 2 ^ 53) :
    e ≤ 0 ∧ m = n * 2 ^ (-e).toNat := by
  have hvalue := h.value
  have hmin := h.min
  rw [nearestNat_of_lt hsmall] at hvalue
  have hle : e ≤ 0 := by
    by_contra hlarge
    have hpower : 2 ^ 53 ≤ 2 ^ (e + 52).toNat := Nat.pow_le_pow_right (by decide) (by omega)
    have hproduct := Nat.mul_le_mul h.low hpower
    omega
  refine ⟨hle, ?_⟩
  have hexponent : 2 ^ 52 = 2 ^ (-e).toNat * 2 ^ (e + 52).toNat := by
    rw [← Nat.pow_add]
    congr 1
    omega
  rw [hexponent, ← Nat.mul_assoc] at hvalue
  exact Nat.eq_of_mul_eq_mul_right (Nat.two_pow_pos _) hvalue

theorem unpack_pack_parts (s : Sign) {n m : Nat} {e : Int} (hm : 0 < m) (hparts : PartsOf n m e)
    (hmax : n.log2 ≤ 971) : (Float.Model.pack (.finite s m e hm)).unpack = .finite s m e hm := by
  have hmin := hparts.min
  have hle := hparts.max
  exact unpack_pack_normal s hparts.low hparts.high (by omega) (by omega) hm

theorem round_eq (s : Sign) (n : Nat) : UnpackedFloat.round Format.binary64 s n 0 =
    roundWithAccuracy Format.binary64 s (n * 2 ^ (52 - n.log2)) (-(52 - n.log2 : Nat)) .exact := by
  have htarget := targetExponent_eq (m := n) (e := 0) rfl (by omega)
  have hshift : (0 - (0 + (n.log2 : Int) - 52)).toNat = 52 - n.log2 := by omega
  rw [UnpackedFloat.round, htarget, decreaseExponent]
  simp only [hshift, Nat.shiftLeft_eq]
  rw [Int.zero_sub]

/-- A number is converted through a word when it has at most 53 digits. -/
theorem exists_unpack_toFloat {n : Nat} (hpos : 0 < n) (hsmall : n < 2 ^ 53) :
    ∃ m e hm, n.toUInt64.toFloat.toModel.unpack = .finite .positive m e hm ∧ PartsOf n m e := by
  have hlog : n.log2 < 53 := (Nat.log2_lt (by omega)).mpr hsmall
  have hword : n.toUInt64.toNat = n := by
    rw [Nat.toUInt64_eq, UInt64.toNat_ofNat']
    omega
  obtain ⟨m, e, hm, hround, hparts⟩ := exists_roundWithAccuracy .positive (k := 52 - n.log2) hpos (by omega)
  rw [← round_eq] at hround
  have hword' : ofUInt64 Format.binary64 n.toUInt64 = .finite .positive m e hm := by
    have hcompare : compare (n : Int) 0 = .gt := Int.compare_eq_gt.mpr (by omega)
    rw [ofUInt64, hword, UnpackedFloat.ofNat, UnpackedFloat.ofInt, UnpackedFloat.normalize, hcompare]
    exact hround
  refine ⟨m, e, hm, ?_, hparts⟩
  change (Float.Model.pack (ofUInt64 Format.binary64 n.toUInt64)).unpack = _
  rw [hword', unpack_pack_parts .positive hm hparts (by omega)]

theorem unpack_one : (Float.ofBits 0x3FF0000000000000).toModel.unpack =
    .finite .positive (2 ^ 52) (-52) (Nat.two_pow_pos 52) := rfl

theorem mul_finite {s t : Sign} {m n : Nat} {e f : Int} (hm : 0 < m) (hn : 0 < n) :
    mul Format.binary64 (.finite s m e hm) (.finite t n f hn) =
      roundWithAccuracy Format.binary64 (s * t) (m * n) (e + f) .exact := rfl

/-- A number with at most 53 digits is multiplied by one, which rounds its parts once more. -/
theorem exists_unpack_mul_one {n : Nat} (hpos : 0 < n) (hsmall : n < 2 ^ 53) :
    ∃ m e hm, (n.toUInt64.toFloat * Float.ofBits 0x3FF0000000000000).toModel.unpack = .finite .positive m e hm ∧
      PartsOf n m e := by
  have hlog : n.log2 < 53 := (Nat.log2_lt (by omega)).mpr hsmall
  obtain ⟨m, e, hm, hword, hparts⟩ := exists_unpack_toFloat hpos hsmall
  obtain ⟨hle, hmantissa⟩ := hparts.mantissa_eq hsmall
  obtain ⟨m', e', hm', hround, hparts'⟩ := exists_roundWithAccuracy .positive (k := (-e).toNat + 52) hpos (by omega)
  have hscale : m * 2 ^ 52 = n * 2 ^ ((-e).toNat + 52) := by rw [hmantissa, Nat.mul_assoc, ← Nat.pow_add]
  have hexponent : e + -52 = -((-e).toNat + 52 : Nat) := by omega
  have hproduct : mul Format.binary64 n.toUInt64.toFloat.toModel.unpack
      (Float.ofBits 0x3FF0000000000000).toModel.unpack = .finite .positive m' e' hm' := by
    rw [hword, unpack_one, mul_finite, hscale, hexponent]
    exact hround
  refine ⟨m', e', hm', ?_, hparts'⟩
  change (Float.Model.pack (mul Format.binary64 _ _)).unpack = _
  rw [hproduct, unpack_pack_parts .positive hm' hparts' (by omega)]

/-- A number with more digits is written on a finer scale. -/
theorem exists_unpack_ofScientific {n : Nat} (hlarge : 2 ^ 53 ≤ n) (hmax : n.log2 ≤ 971) :
    ∃ m e hm, (Float.ofModel (.ofScientific n 0)).toModel.unpack = .finite .positive m e hm ∧ PartsOf n m e := by
  obtain ⟨m, e, hm, hround, hparts⟩ := exists_roundWithAccuracy .positive (n := n) (k := 53) (by omega) (by omega)
  have hscale : n <<< Format.binary64.mantissaBits * 10 ^ (0 : Int).toNat = n * 2 ^ 53 := by
    rw [Nat.shiftLeft_eq]
    exact Nat.mul_one _
  have hlog : ¬ (0 : Int) < -((2 ^ Format.binary64.exponentBits : Int) + n.log2) := by
    change ¬ (0 : Int) < -(2048 + n.log2)
    omega
  have hscientific : ofScientific Format.binary64 n 0 = .finite .positive m e hm := by
    rw [ofScientific, dif_neg (by omega), if_neg (by decide), if_neg hlog, if_pos (Int.le_refl 0), mul_finite, hscale]
    exact hround
  refine ⟨m, e, hm, ?_, hparts⟩
  change (Float.Model.pack (ofScientific Format.binary64 n 0)).unpack = _
  rw [hscientific, unpack_pack_parts .positive hm hparts hmax]

theorem exists_unpack_ofNat {n : Nat} (hpos : 0 < n) (hmax : n.log2 ≤ 971) :
    ∃ m e hm, (Float.ofNat n).toModel.unpack = .finite .positive m e hm ∧ PartsOf n m e := by
  change ∃ m e hm, (Float.ofScientific n false 0).toModel.unpack = .finite .positive m e hm ∧ PartsOf n m e
  unfold Float.ofScientific
  split
  · next hsmall => exact exists_unpack_mul_one hpos hsmall.1
  · next hlarge => exact exists_unpack_ofScientific (by omega) hmax

/-! ## Doubles nearest to integers -/

/-- Whether a double is a zero or has 53 digits, the last of them of weight `2 ^ (-52)` at least. -/
def IsNormal : UnpackedFloat → Prop
  | .zero _ => True
  | .finite _ m e _ => 2 ^ 52 ≤ m ∧ m < 2 ^ 53 ∧ -52 ≤ e
  | _ => False

/-- A normal double as a multiple of `2 ^ (-52)`. -/
def units : UnpackedFloat → Int
  | .finite s m e _ => s.apply (m * 2 ^ (e + 52).toNat : Nat)
  | _ => 0

/-- Whether a double is equal to an integer. -/
structure StandsFor (value : Int) (x : UnpackedFloat) : Prop where
  isNormal : IsNormal x
  units_eq : units x = value * 2 ^ 52

theorem StandsFor.neg {value : Int} {x : UnpackedFloat} (h : StandsFor value x) : StandsFor (-value) x.neg := by
  obtain ⟨hnormal, hunits⟩ := h
  cases x with
  | notANumber | infinity => cases hnormal
  | zero s => exact ⟨trivial, by rw [Int.neg_mul, ← hunits]; rfl⟩
  | finite s m e hm =>
    refine ⟨hnormal, ?_⟩
    rw [Int.neg_mul, ← hunits]
    cases s with
    | negative => exact (Int.neg_neg _).symm
    | positive => rfl

/-- Of two normal doubles, the one with the greater exponent is the greater one. -/
theorem scaled_lt_scaled {m n : Nat} {e f : Int} (hm : m < 2 ^ 53) (hn : 2 ^ 52 ≤ n) (he : -52 ≤ e) (h : e < f) :
    m * 2 ^ (e + 52).toNat < n * 2 ^ (f + 52).toNat := by
  have hpower : 2 ^ 53 * 2 ^ (e + 52).toNat = 2 ^ 52 * 2 ^ (e + 53).toNat := by
    rw [← Nat.pow_add, ← Nat.pow_add]
    congr 1
    omega
  calc m * 2 ^ (e + 52).toNat < 2 ^ 53 * 2 ^ (e + 52).toNat := Nat.mul_lt_mul_of_pos_right hm (Nat.two_pow_pos _)
    _ = 2 ^ 52 * 2 ^ (e + 53).toNat := hpower
    _ ≤ 2 ^ 52 * 2 ^ (f + 52).toNat := Nat.mul_le_mul_left _ (Nat.pow_le_pow_right (by decide) (by omega))
    _ ≤ n * 2 ^ (f + 52).toNat := Nat.mul_le_mul_right _ hn

theorem compare_scaled {m n : Nat} {e f : Int} (hm : 2 ^ 52 ≤ m) (hm' : m < 2 ^ 53) (hn : 2 ^ 52 ≤ n)
    (hn' : n < 2 ^ 53) (he : -52 ≤ e) (hf : -52 ≤ f) : (compare e f).then (compare m n) =
      compare ((m * 2 ^ (e + 52).toNat : Nat) : Int) (n * 2 ^ (f + 52).toNat : Nat) := by
  rcases Int.lt_trichotomy e f with hless | rfl | hgreater
  · rw [Int.compare_eq_lt.mpr hless, Int.compare_eq_lt.mpr (Int.ofNat_lt.mpr (scaled_lt_scaled hm' hn he hless))]
    rfl
  · have hpos := Nat.two_pow_pos (e + 52).toNat
    rw [Int.compare_eq_eq.mpr rfl]
    rcases Nat.lt_trichotomy m n with hless | rfl | hgreater
    · rw [Nat.compare_eq_lt.mpr hless,
        Int.compare_eq_lt.mpr (Int.ofNat_lt.mpr (Nat.mul_lt_mul_of_pos_right hless hpos))]
      rfl
    · rw [Nat.compare_eq_eq.mpr rfl, Int.compare_eq_eq.mpr rfl]
      rfl
    · rw [Nat.compare_eq_gt.mpr hgreater,
        Int.compare_eq_gt.mpr (Int.ofNat_lt.mpr (Nat.mul_lt_mul_of_pos_right hgreater hpos))]
      rfl
  · rw [Int.compare_eq_gt.mpr hgreater,
      Int.compare_eq_gt.mpr (Int.ofNat_lt.mpr (scaled_lt_scaled hn' hm hf hgreater))]
    rfl

theorem compare_neg_neg (v w : Int) : compare (-v) (-w) = (compare v w).swap := by
  rcases Int.lt_trichotomy v w with hless | rfl | hgreater
  · rw [Int.compare_eq_lt.mpr hless, Int.compare_eq_gt.mpr (by omega)]
    rfl
  · rw [Int.compare_eq_eq.mpr rfl, Int.compare_eq_eq.mpr rfl]
    rfl
  · rw [Int.compare_eq_gt.mpr hgreater, Int.compare_eq_lt.mpr (by omega)]
    rfl

/-- Normal doubles are compared by their units. -/
theorem compare_eq_units {x y : UnpackedFloat} (hx : IsNormal x) (hy : IsNormal y) :
    x.compare y = some (compare (units x) (units y)) := by
  have hpos {m : Nat} (hm : 2 ^ 52 ≤ m) (e : Int) : (0 : Int) < (m * 2 ^ (e + 52).toNat : Nat) :=
    Int.ofNat_lt.mpr (Nat.mul_pos (by omega) (Nat.two_pow_pos _))
  cases x with
  | notANumber | infinity => cases hx
  | zero s =>
    cases y with
    | notANumber | infinity => cases hy
    | zero t => rfl
    | finite t n f hn =>
      have hy' := hpos hy.1 f
      cases t with
      | negative => exact congrArg some (Int.compare_eq_gt.mpr (Int.neg_neg_of_pos hy')).symm
      | positive => exact congrArg some (Int.compare_eq_lt.mpr hy').symm
  | finite s m e hm =>
    have hx' := hpos hx.1 e
    cases y with
    | notANumber | infinity => cases hy
    | zero t =>
      cases s with
      | negative => exact congrArg some (Int.compare_eq_lt.mpr (Int.neg_neg_of_pos hx')).symm
      | positive => exact congrArg some (Int.compare_eq_gt.mpr hx').symm
    | finite t n f hn =>
      have hy' := hpos hy.1 f
      have hsize := compare_scaled hx.1 hx.2.1 hy.1 hy.2.1 hx.2.2 hy.2.2
      cases s with
      | negative =>
        cases t with
        | negative =>
          refine congrArg some ?_
          rw [units, units, Sign.apply, Sign.apply, compare_neg_neg, ← hsize]
        | positive =>
          have hmixed := Int.lt_trans (Int.neg_neg_of_pos hx') hy'
          exact congrArg some (Int.compare_eq_lt.mpr hmixed).symm
      | positive =>
        cases t with
        | negative =>
          have hmixed := Int.lt_trans (Int.neg_neg_of_pos hy') hx'
          exact congrArg some (Int.compare_eq_gt.mpr hmixed).symm
        | positive => exact congrArg some hsize

/-- Integers are compared like their multiples. -/
theorem compare_of_standsFor {v w : Int} {x y : UnpackedFloat} (hx : StandsFor v x) (hy : StandsFor w y) :
    x.compare y = some (compare v w) := by
  rw [compare_eq_units hx.isNormal hy.isNormal, hx.units_eq, hy.units_eq]
  rcases Int.lt_trichotomy v w with hless | rfl | hgreater
  · rw [Int.compare_eq_lt.mpr hless, Int.compare_eq_lt.mpr (by omega)]
  · rw [Int.compare_eq_eq.mpr rfl, Int.compare_eq_eq.mpr rfl]
  · rw [Int.compare_eq_gt.mpr hgreater, Int.compare_eq_gt.mpr (by omega)]

theorem PartsOf.standsFor {n m : Nat} {e : Int} (h : PartsOf n m e) (hm : 0 < m) :
    StandsFor (nearestNat n) (.finite .positive m e hm) := by
  refine ⟨⟨h.low, h.high, h.min⟩, ?_⟩
  rw [units, Sign.apply, h.value]
  rfl

theorem standsFor_ofInt {n : Int} (hmax : n.natAbs.log2 ≤ 971) :
    StandsFor (nearest n) (Float.ofInt n).toModel.unpack := by
  cases n with
  | ofNat k =>
    change StandsFor (nearest k) (Float.ofNat k).toModel.unpack
    rw [nearest_natCast]
    rcases Nat.eq_zero_or_pos k with rfl | hpos
    · exact ⟨trivial, rfl⟩
    · obtain ⟨m, e, hm, hunpack, hparts⟩ := exists_unpack_ofNat hpos hmax
      rw [hunpack]
      exact hparts.standsFor hm
  | negSucc k =>
    obtain ⟨m, e, hm, hunpack, hparts⟩ := exists_unpack_ofNat k.succ_pos hmax
    rw [Int.negSucc_eq, ← Int.natCast_succ, nearest_neg, nearest_natCast]
    change StandsFor _ (Float.Model.pack (Float.ofNat (k + 1)).toModel.unpack.neg).unpack
    have hnegative := unpack_pack_parts .negative hm hparts hmax
    rw [hunpack]
    change StandsFor _ (Float.Model.pack (.finite .negative m e hm)).unpack
    rw [hnegative]
    exact (hparts.standsFor hm).neg

theorem standsFor_ofInt64 (n : Int64) : StandsFor (nearest n.toInt) (ofInt64 n).toModel.unpack := by
  refine standsFor_ofInt ?_
  have hlow := n.le_toInt
  have hhigh := n.toInt_lt
  by_cases hzero : n.toInt.natAbs = 0
  · rw [hzero]
    decide
  · have := (Nat.log2_lt (k := 64) hzero).mpr (by omega)
    omega

/-- Two converted integers are compared like the rounded integers. -/
theorem compare_ofInt64 (m n : Int64) : (ofInt64 m).toModel.unpack.compare (ofInt64 n).toModel.unpack =
    some (compare (nearest m.toInt) (nearest n.toInt)) :=
  compare_of_standsFor (standsFor_ofInt64 m) (standsFor_ofInt64 n)

end ModelText.Number
