import Waypoints.Number.Shortest
import Waypoints.Proofs.Number.Arithmetic
/-!
# The numbers of decimals

Which number a decimal is read as depends on its value alone (`Decimal.toFloat_congr`), not on how
many zeros it is written with: scaling a fraction changes neither its bits nor what is left after
them (`Fraction.round_congr`). The shortest decimal of a number reads back as the number
(`toFloat_shortestDecimal`), since the exact one does (`toFloat_exactDecimal`).
-/

set_option autoImplicit false
set_option relaxedAutoImplicit false

namespace Waypoints.Number

open Float.Model (UnpackedFloat totalExponent)
open Float.Model.Format Float.Model.UnpackedFloat

/-! ### Fractions of one value -/

theorem ofFraction_scale {n d k : Nat} (hd : 0 < d) (hk : 0 < k) :
    ofFraction (n * k) (d * k) = ofFraction n d := by
  have hhalf (r : Nat) : d * k ≤ 2 * (r * k) ↔ d ≤ 2 * r := by
    rw [← Nat.mul_assoc]
    exact Nat.mul_le_mul_right_iff hk
  have htie (r : Nat) : 2 * (r * k) = d * k ↔ 2 * r = d := by
    rw [← Nat.mul_assoc]
    exact Nat.mul_left_inj hk.ne'
  have hzero (r : Nat) : r * k = 0 ↔ r = 0 := by
    rw [Nat.mul_eq_zero]
    omega
  rw [ofFraction_eq hd, ofFraction_eq (Nat.mul_pos hd hk), Nat.mul_div_mul_right n d hk,
    Nat.mul_mod_mul_right]
  simp only [hhalf, htie, hzero]

theorem ofFraction_congr {n d n' d' : Nat} (hd : 0 < d) (hd' : 0 < d') (h : n * d' = n' * d) :
    ofFraction n d = ofFraction n' d' := by
  rw [← ofFraction_scale hd hd', ← ofFraction_scale hd' hd, h, Nat.mul_comm d]

/-- A positive value `num / den * 2 ^ exponent` that has to lose bits at most to have the exponent
of the format. -/
structure Fraction where
  num : Nat
  den : Nat
  exponent : Int
  num_pos : 0 < num
  den_pos : 0 < den
  exponent_le : exponent ≤ binary64.targetExponent (totalExponent (num / den) exponent)

namespace Fraction

variable (s : Sign) {a b : Fraction}

/-- The value of a fraction. -/
def value (a : Fraction) : ℚ :=
  a.num / a.den * 2 ^ a.exponent

theorem value_pos (a : Fraction) : 0 < a.value := by
  have hnum : (0 : ℚ) < a.num := by exact_mod_cast a.num_pos
  have hden : (0 : ℚ) < a.den := by exact_mod_cast a.den_pos
  unfold value
  positivity

/-- The nearest form of the format. -/
def round (a : Fraction) : UnpackedFloat :=
  roundWithAccuracy binary64 s (a.num / a.den) a.exponent
    (accuracyOfFraction (a.num % a.den) a.den)

/-- The exponent that the nearest form has before a carry. -/
def target (a : Fraction) : Int :=
  binary64.targetExponent (totalExponent (a.num / a.den) a.exponent)

/-- The denominator over the target. -/
def unit (a : Fraction) : Nat :=
  a.den * 2 ^ (a.target - a.exponent).toNat

theorem unit_pos (a : Fraction) : 0 < a.unit :=
  Nat.mul_pos a.den_pos (Nat.two_pow_pos _)

theorem value_eq (a : Fraction) : a.value = a.num / a.unit * 2 ^ a.target := by
  have hle : a.exponent ≤ a.target := a.exponent_le
  have hpow : (2 : ℚ) ^ (a.target - a.exponent).toNat = 2 ^ a.target / 2 ^ a.exponent := by
    rw [← zpow_natCast, Int.toNat_of_nonneg (by omega), zpow_sub₀ two_ne_zero]
  have hden : (a.den : ℚ) ≠ 0 := by exact_mod_cast a.den_pos.ne'
  rw [value, unit]
  push_cast
  rw [hpow]
  field_simp

theorem shiftToTargetExponent_eq (a : Fraction) :
    shiftToTargetExponent binary64 (a.num / a.den) a.exponent
      (accuracyOfFraction (a.num % a.den) a.den) = (ofFraction a.num a.unit, a.target) := by
  have hle : a.exponent ≤ a.target := a.exponent_le
  have hexponent : a.exponent + ((a.target - a.exponent).toNat : Int) = a.target := by omega
  rw [shiftToTargetExponent, shiftToExponent]
  change (ofFraction a.num a.den >>> (a.target - a.exponent).toNat,
    a.exponent + ((a.target - a.exponent).toNat : Int)) = _
  rw [shiftRight_ofFraction a.den_pos, hexponent, unit]

/-- The first bit of a fraction of at least one. -/
theorem log_value (h : a.den ≤ a.num) :
    Int.log 2 a.value = (a.num / a.den).log2 + a.exponent := by
  have hquotient : a.num / a.den ≠ 0 := (Nat.div_pos h a.den_pos).ne'
  obtain ⟨hlow, hhigh⟩ := (Nat.log2_eq_iff hquotient).1 rfl
  generalize (a.num / a.den).log2 = k at hlow hhigh ⊢
  rw [Nat.le_div_iff_mul_le a.den_pos] at hlow
  rw [Nat.div_lt_iff_lt_mul a.den_pos] at hhigh
  have hden : (0 : ℚ) < a.den := by exact_mod_cast a.den_pos
  have hpow : (0 : ℚ) < 2 ^ a.exponent := by positivity
  have hlow' : ((2 : Nat) : ℚ) ^ (k + a.exponent) ≤ a.value := by
    rw [Nat.cast_ofNat, zpow_add₀ two_ne_zero, zpow_natCast]
    exact mul_le_mul_of_nonneg_right ((le_div_iff₀ hden).2 (by exact_mod_cast hlow)) hpow.le
  have hhigh' : a.value < ((2 : Nat) : ℚ) ^ (k + a.exponent + 1) := by
    rw [Nat.cast_ofNat, add_right_comm, zpow_add₀ two_ne_zero, ← Nat.cast_succ, zpow_natCast]
    exact mul_lt_mul_of_pos_right ((div_lt_iff₀ hden).2 (by exact_mod_cast hhigh)) hpow
  have hle := (Int.zpow_le_iff_le_log one_lt_two a.value_pos).1 hlow'
  have hlt := (Int.lt_zpow_iff_log_lt one_lt_two a.value_pos).1 hhigh'
  omega

theorem log_value_lt (h : a.num < a.den) : Int.log 2 a.value < a.exponent := by
  have hden : (0 : ℚ) < a.den := by exact_mod_cast a.den_pos
  refine (Int.lt_zpow_iff_log_lt one_lt_two a.value_pos).1 ?_
  rw [Nat.cast_ofNat, value]
  refine mul_lt_of_lt_one_left (by positivity) ((div_lt_one hden).2 ?_)
  exact_mod_cast h

/-- The target depends on the value alone. -/
theorem target_eq (a : Fraction) :
    a.target = max (Int.log 2 a.value - 52) (-1074) := by
  have hle : a.exponent ≤ a.target := a.exponent_le
  have htarget : a.target = max ((a.num / a.den).log2 + a.exponent - 52) (-1074) := by
    rw [target, targetExponent, totalExponent, minExponent, mantissaBits]
    push_cast
    omega
  rcases le_or_gt a.den a.num with h | h
  · rw [log_value h, htarget]
  · -- without a bit before the point, only the least exponent leaves nothing to add
    have hlog := log_value_lt h
    rw [Nat.div_eq_of_lt h, Nat.log2_zero] at htarget
    omega

/-- Fractions of one value have the same nearest form. -/
theorem round_congr (h : a.value = b.value) : a.round s = b.round s := by
  have htarget : a.target = b.target := by rw [target_eq, target_eq, h]
  have hbits : ofFraction a.num a.unit = ofFraction b.num b.unit := by
    refine ofFraction_congr a.unit_pos b.unit_pos ?_
    have hunit : (a.unit : ℚ) ≠ 0 := by exact_mod_cast a.unit_pos.ne'
    have hunit' : (b.unit : ℚ) ≠ 0 := by exact_mod_cast b.unit_pos.ne'
    rw [value_eq, value_eq, htarget] at h
    have hquotient := mul_right_cancel₀ (zpow_ne_zero _ two_ne_zero) h
    exact_mod_cast (div_eq_div_iff hunit hunit').1 hquotient
  simp only [round, roundWithAccuracy, shiftToTargetExponent_eq, htarget, hbits]

/-- A mantissa that is rounded to zero stays zero. -/
theorem roundWithAccuracy_eq_zero {m : Nat} {e : Int} {accuracy : Accuracy}
    (h : (shiftToTargetExponent binary64 m e accuracy).1.roundedMantissa = 0) :
    roundWithAccuracy binary64 s m e accuracy = .zero s := by
  have hshift (k : Nat) :
      ExtendedMantissa.ofMantissaAndAccuracy 0 .exact >>> k = ⟨0, false, false⟩ := by
    induction k with
    | zero => rfl
    | succ k ih => exact congrArg ExtendedMantissa.shiftRightOne ih
  have hzero (f : Int) : (shiftToTargetExponent binary64 0 f .exact).1.mantissa = 0 :=
    congrArg ExtendedMantissa.mantissa (hshift _)
  simp only [roundWithAccuracy, h, dif_pos (hzero _)]

/-- What is less than half of the least positive number is rounded to zero. -/
theorem round_eq_zero (h : a.value < 2 ^ (-1075 : Int)) : a.round s = .zero s := by
  have hunit : (0 : ℚ) < a.unit := by exact_mod_cast a.unit_pos
  have hlog := (Int.lt_zpow_iff_log_lt one_lt_two a.value_pos).1 (by rwa [Nat.cast_ofNat])
  have htarget : a.target = -1074 := by
    rw [target_eq]
    omega
  have hhalf : 2 * a.num < a.unit := by
    have hstep : (2 : ℚ) ^ (-1075 : Int) = 1 / 2 * 2 ^ (-1074 : Int) := by
      rw [show (-1075 : Int) = -1074 - 1 by rfl, zpow_sub_one₀ two_ne_zero]
      ring
    rw [value_eq, htarget, hstep] at h
    have hquotient := lt_of_mul_lt_mul_right h (by positivity)
    rw [div_lt_iff₀ hunit] at hquotient
    exact_mod_cast (show (2 : ℚ) * a.num < a.unit by linarith)
  have hzero : (ofFraction a.num a.unit).roundedMantissa = 0 := by
    obtain ⟨-, hdown⟩ := roundedMantissa_ofFraction (n := a.num) a.unit_pos
    by_contra hne
    have hone : 2 * 1 * a.unit ≤ 2 * (ofFraction a.num a.unit).roundedMantissa * a.unit :=
      Nat.mul_le_mul_right _ (Nat.mul_le_mul_left 2 (Nat.one_le_iff_ne_zero.2 hne))
    omega
  refine roundWithAccuracy_eq_zero s ?_
  rw [shiftToTargetExponent_eq]
  exact hzero

/-- A mantissa is a fraction over 1. -/
theorem exists_of_mantissa {m : Nat} {e : Int} (hm : 0 < m)
    (he : e ≤ binary64.targetExponent (totalExponent m e)) :
    ∃ a : Fraction, a.value = m * 2 ^ e ∧ a.round s = roundWithAccuracy binary64 s m e .exact := by
  refine ⟨⟨m, 1, e, hm, one_pos, by rwa [Nat.div_one]⟩, ?_, ?_⟩
  · rw [value, Nat.cast_one, div_one]
  · simp only [round, Nat.div_one, Nat.mod_one]
    rfl

end Fraction

/-! ### Decimals -/

section Decimals

variable {m : Nat} {e : Int}

/-- The exponent that a quotient is computed with leaves it enough bits. -/
theorem le_targetExponent_div (hm : 0 < m) {n : Nat} (hn : 0 < n) {t : Int}
    (ht : t = min 0 (binary64.targetExponent (totalExponent m 0 - totalExponent n 0))) :
    t ≤ binary64.targetExponent (totalExponent (m * 2 ^ (-t).toNat / n) t) := by
  have hlow := Nat.log2_self_le hm.ne'
  have hhigh := Nat.lt_log2_self (n := n)
  rw [targetExponent, totalExponent, totalExponent, minExponent, mantissaBits] at ht
  rw [targetExponent, totalExponent, minExponent, mantissaBits]
  push_cast at ht ⊢
  rcases le_or_gt t (-1074) with hleast | hleast
  · omega
  have hbits : 52 ≤ (m * 2 ^ (-t).toNat / n).log2 := by
    have hquotient : 2 ^ 52 ≤ m * 2 ^ (-t).toNat / n := by
      rw [Nat.le_div_iff_mul_le hn]
      calc 2 ^ 52 * n ≤ 2 ^ 52 * 2 ^ (n.log2 + 1) := Nat.mul_le_mul_left _ hhigh.le
        _ = 2 ^ (52 + (n.log2 + 1)) := (Nat.pow_add ..).symm
        _ ≤ 2 ^ (m.log2 + (-t).toNat) := Nat.pow_le_pow_right two_pos (by omega)
        _ = 2 ^ m.log2 * 2 ^ (-t).toNat := Nat.pow_add ..
        _ ≤ m * 2 ^ (-t).toNat := Nat.mul_le_mul_right _ hlow
    exact (Nat.le_log2 (by omega)).2 hquotient
  omega

/-- A decimal with a power of ten above is a fraction that is rounded. -/
theorem exists_fraction_mul (hm : 0 < m) (k : Nat) (hm' : 0 < m <<< 53) (hk : 0 < 10 ^ k) :
    ∃ a : Fraction, a.value = m * 10 ^ k ∧
      mul binary64 (.finite .positive (m <<< 53) (-53) hm') (.finite .positive (10 ^ k) 0 hk) =
        a.round .positive := by
  have hbits : 53 ≤ (m <<< 53 * 10 ^ k).log2 := by
    rw [Nat.shiftLeft_eq]
    refine (Nat.le_log2 (by positivity)).2 ?_
    calc 2 ^ 53 = 1 * 2 ^ 53 * 1 := by norm_num
      _ ≤ m * 2 ^ 53 * 10 ^ k := Nat.mul_le_mul (Nat.mul_le_mul_right _ hm) hk
  have hle : -53 + 0 ≤ binary64.targetExponent (totalExponent (m <<< 53 * 10 ^ k) (-53 + 0)) := by
    rw [targetExponent, totalExponent, minExponent, mantissaBits]
    push_cast
    omega
  obtain ⟨a, ha, hround⟩ := Fraction.exists_of_mantissa .positive (Nat.mul_pos hm' hk) hle
  refine ⟨a, ?_, hround.symm⟩
  rw [ha, Nat.shiftLeft_eq]
  push_cast
  rw [zpow_neg]
  field_simp
  norm_num

/-- A decimal with a power of ten below is a fraction that is rounded. -/
theorem exists_fraction_div (hm : 0 < m) (k : Nat) (hk : 0 < 10 ^ k) :
    ∃ a : Fraction, a.value = m / 10 ^ k ∧
      div binary64 (.finite .positive m 0 hm) (.finite .positive (10 ^ k) 0 hk) =
        a.round .positive := by
  generalize ht : min 0 (binary64.targetExponent (totalExponent m 0 - totalExponent (10 ^ k) 0)) = t
  refine ⟨⟨m * 2 ^ (-t).toNat, 10 ^ k, t, Nat.mul_pos hm (Nat.two_pow_pos _), hk,
    le_targetExponent_div hm hk ht.symm⟩, ?_, ?_⟩
  · have hpow : (2 : ℚ) ^ (-t).toNat * 2 ^ t = 1 := by
      rw [← zpow_natCast, Int.toNat_of_nonneg (by omega), ← zpow_add₀ two_ne_zero, neg_add_cancel,
        zpow_zero]
    rw [Fraction.value]
    push_cast
    rw [mul_div_right_comm, mul_assoc, hpow, mul_one]
  · simp only [UnpackedFloat.div, divCore, sub_zero, zero_sub, ht, Nat.shiftLeft_eq]
    rfl

theorem zpow_le_zpow_left_of_nonpos (he : e ≤ 0) : (10 : ℚ) ^ e ≤ 2 ^ e := by
  obtain ⟨k, hk⟩ := Int.eq_ofNat_of_zero_le (show 0 ≤ -e by omega)
  obtain rfl : e = -k := by omega
  rw [zpow_neg, zpow_neg, zpow_natCast, zpow_natCast]
  exact inv_anti₀ (by positivity) (pow_le_pow_left₀ (by norm_num) (by norm_num) k)

/-- A decimal is rounded as a fraction, unless it is too small for this to be tried. -/
theorem ofScientific_cases (hm : 0 < m) (he : e ≤ 2048) :
    (∃ a : Fraction, a.value = m * 10 ^ e ∧ ofScientific binary64 m e = a.round .positive) ∨
      (m : ℚ) * 10 ^ e < 2 ^ (-1075 : Int) ∧ ofScientific binary64 m e = .zero .positive := by
  unfold ofScientific
  rw [dif_neg hm.ne', if_neg (by push_cast; omega)]
  split
  · next hsmall =>
    push_cast at hsmall
    refine .inr ⟨?_, rfl⟩
    have hlt : (m : ℚ) < 2 ^ (m.log2 + 1) := by exact_mod_cast Nat.lt_log2_self
    have hten : (10 : ℚ) ^ e ≤ 2 ^ e := zpow_le_zpow_left_of_nonpos (by omega)
    calc (m : ℚ) * 10 ^ e ≤ 2 ^ (m.log2 + 1) * 2 ^ e :=
          mul_le_mul hlt.le hten (by positivity) (by positivity)
      _ = 2 ^ ((m.log2 : Int) + 1 + e) := by
        rw [zpow_add₀ two_ne_zero, ← Nat.cast_succ, zpow_natCast]
      _ < 2 ^ (-1075 : Int) := zpow_lt_zpow_right₀ one_lt_two (by omega)
  · left
    split
    · next hle =>
      obtain ⟨k, rfl⟩ := Int.eq_ofNat_of_zero_le hle
      rw [zpow_natCast]
      exact exists_fraction_mul hm k _ _
    · next hneg =>
      obtain ⟨k, hk⟩ := Int.eq_ofNat_of_zero_le (show 0 ≤ -e by omega)
      obtain rfl : e = -k := by omega
      simp only [neg_neg, Int.toNat_natCast]
      rw [zpow_neg, zpow_natCast, ← div_eq_mul_inv]
      exact exists_fraction_div hm k _

end Decimals

end Waypoints.Number

namespace Waypoints.Decimal

/-- The value of a decimal. -/
def toRat (d : Decimal) : ℚ :=
  d.digits * 10 ^ d.exponent

theorem toRat_eq_zero_iff {d : Decimal} : d.toRat = 0 ↔ d.digits = 0 := by
  rw [toRat, mul_eq_zero_iff_right (zpow_ne_zero _ (by norm_num)), Nat.cast_eq_zero]

open Number Float.Model.Format Float.Model.UnpackedFloat

/-- Decimals of one value are read as one number.

Assumes: neither has so great an exponent that it is taken for an infinity. -/
theorem toFloat_congr {d d' : Decimal} (h : d.toRat = d'.toRat) (hd : d.exponent ≤ 2048)
    (hd' : d'.exponent ≤ 2048) : d.toFloat = d'.toFloat := by
  have hzero : d.digits = 0 ↔ d'.digits = 0 := by
    rw [← toRat_eq_zero_iff, h, toRat_eq_zero_iff]
  suffices hforms : ofScientific binary64 d.digits d.exponent =
      ofScientific binary64 d'.digits d'.exponent from congrArg ofUnpacked hforms
  rcases Nat.eq_zero_or_pos d.digits with hm | hm
  · rw [hm, hzero.1 hm]
    rfl
  have hm' : 0 < d'.digits := Nat.pos_of_ne_zero fun hm' ↦ hm.ne' (hzero.2 hm')
  unfold toRat at h
  rcases ofScientific_cases hm hd with ⟨a, ha, hform⟩ | ⟨hsmall, hform⟩ <;>
    rcases ofScientific_cases hm' hd' with ⟨b, hb, hform'⟩ | ⟨hsmall', hform'⟩ <;>
    rw [hform, hform']
  · exact Fraction.round_congr _ (by rw [ha, hb, h])
  · exact Fraction.round_eq_zero _ (by rwa [ha, h])
  · exact (Fraction.round_eq_zero _ (by rwa [hb, ← h])).symm

/-- What is read as a number other than zero has digits, and is not taken for an infinity. -/
theorem digits_pos_and_exponent_le {d : Decimal} {s : Sign} {m : Nat} {e : Int} {hm : 0 < m}
    (h : d.toFloat.toModel.unpack = .finite s m e hm) : 0 < d.digits ∧ d.exponent ≤ 2048 := by
  change unpack binary64 (pack binary64 (ofScientific binary64 d.digits d.exponent)) = _ at h
  unfold ofScientific at h
  split at h
  · have hzero : unpack binary64 (pack binary64 (.zero .positive)) = .zero .positive :=
      unpack_packedZero
    rw [hzero] at h
    cases h
  · next hdigits =>
    split at h
    · have hinfinity : unpack binary64 (pack binary64 (.infinity .positive)) =
          .infinity .positive := unpack_packedInfinity .positive
      rw [hinfinity] at h
      cases h
    · next hexponent =>
      push_cast at hexponent
      exact ⟨Nat.pos_of_ne_zero hdigits, by omega⟩

end Waypoints.Decimal

namespace Waypoints.Number

open Float.Model (UnpackedFloat totalExponent)
open Float.Model.Format Float.Model.UnpackedFloat

/-! ### The decimals of a number -/

section Magnitudes

variable {m : Nat} {e : Int}

theorem toRat_exactDecimal (m : Nat) (e : Int) : (exactDecimal m e).toRat = m * 2 ^ e := by
  unfold exactDecimal Decimal.toRat
  split
  · next he =>
    obtain ⟨k, rfl⟩ := Int.eq_ofNat_of_zero_le he
    push_cast [Nat.pow_eq]
    rw [mul_one, Int.toNat_natCast, zpow_natCast]
  · next he =>
    obtain ⟨k, hk⟩ := Int.eq_ofNat_of_zero_le (show 0 ≤ -e by omega)
    obtain rfl : e = -k := by omega
    push_cast [Nat.pow_eq]
    rw [neg_neg, Int.toNat_natCast, zpow_neg, zpow_neg, zpow_natCast, zpow_natCast,
      show (10 : ℚ) = 5 * 2 by norm_num, mul_pow]
    field_simp

/-- The exact decimal of a canonical form is read as its number. -/
theorem toFloat_exactDecimal (hm : 0 < m) (h : Canonical binary64 m e) :
    (exactDecimal m e).toFloat = ofUnpacked (.finite .positive m e hm) := by
  obtain ⟨hlt, hleast, -⟩ := h.bounds hm
  obtain ⟨a, ha, hround⟩ := Fraction.exists_of_mantissa .positive hm h.target.ge
  have hvalue := toRat_exactDecimal m e
  have hexponent : (exactDecimal m e).exponent = min e 0 := by
    unfold exactDecimal
    split
    · next he => exact (min_eq_right he).symm
    · next he => exact (min_eq_left (not_le.1 he).le).symm
  have hdigits : 0 < (exactDecimal m e).digits := by
    refine Nat.pos_of_ne_zero fun hzero ↦ ?_
    rw [Decimal.toRat_eq_zero_iff.2 hzero] at hvalue
    exact a.value_pos.ne (hvalue.trans ha.symm)
  rw [roundWithAccuracy_target .positive hm h.target] at hround
  rw [← ha] at hvalue
  refine congrArg ofUnpacked ?_
  rcases ofScientific_cases hdigits (hexponent.trans_le (by omega)) with
    ⟨b, hb, hform⟩ | ⟨hsmall, hform⟩
  · rw [hform, ← hround]
    exact Fraction.round_congr _ (hb.trans hvalue)
  · have hzero := Fraction.round_eq_zero .positive (hvalue.ge.trans_lt hsmall)
    rw [hround] at hzero
    cases hzero

/-- The shortest decimal of a number is read as its magnitude. -/
theorem toFloat_shortestDecimal (tie : Tie) {x : Float} {s : Sign} {hm : 0 < m}
    (hx : x.toModel.unpack = .finite s m e hm) : (shortestDecimal tie x m e).toFloat = x.abs := by
  have hunpack := unpack_abs x
  rw [hx] at hunpack
  unfold shortestDecimal
  dsimp only
  cases hfind : List.findSome? _ _ with
  | none =>
    refine eq_of_unpack_eq ?_
    rw [Option.getD_none, toFloat_exactDecimal hm (canonical_of_eq_finite hx), hunpack]
    exact unpack_pack .positive hm (canonical_of_eq_finite hx)
  | some d =>
    obtain ⟨count, -, hhit⟩ := List.exists_of_findSome?_eq_some hfind
    have hbeq := List.find?_some hhit
    rcases (Same.of_beq hbeq).eq_or with heq | ⟨-, t, -, hzero⟩
    · exact heq
    · rw [hunpack] at hzero
      cases hzero

end Magnitudes

end Waypoints.Number
