import Waypoints.Proofs.Number.Rational
/-!
# Integer arithmetic in binary64

Products of integers are exact where the numbers of the integers are (`same_ofInt_mul`). A quotient
is rounded, but its floor and its ceiling are those of the exact quotient (`same_floor_div`,
`same_ceil_div`): rounding moves it by half a unit in its last place, which is less than its
distance to the next integer.
-/

set_option autoImplicit false
set_option relaxedAutoImplicit false

namespace Waypoints.Number

open Float.Model (UnpackedFloat totalExponent)
open Float.Model.Format Float.Model.UnpackedFloat

/-! ### Products -/

section Products

variable {a b : Int}

theorem signOf_mul (ha : a ≠ 0) (hb : b ≠ 0) : signOf a * signOf b = signOf (a * b) := by
  unfold signOf
  rcases lt_or_gt_of_ne ha with hneg | hpos <;> rcases lt_or_gt_of_ne hb with hneg' | hpos'
  · rw [if_pos hneg, if_pos hneg', if_neg (not_lt.2 (mul_pos_of_neg_of_neg hneg hneg').le)]
    rfl
  · rw [if_pos hneg, if_neg hpos'.not_gt, if_pos (mul_neg_of_neg_of_pos hneg hpos')]
    rfl
  · rw [if_neg hpos.not_gt, if_pos hneg', if_pos (mul_neg_of_pos_of_neg hpos hneg')]
    rfl
  · rw [if_neg hpos.not_gt, if_neg hpos'.not_gt, if_neg (mul_pos hpos hpos').not_gt]
    rfl

/-- A product has at least the binary places that its factors leave. -/
theorem places_mul_le (ha : a ≠ 0) (hb : b ≠ 0) (hlt : (a * b).natAbs < 2 ^ 53) :
    places (a * b) ≤ places a + places b := by
  have hlow : 2 ^ (a.natAbs.log2 + b.natAbs.log2) ≤ (a * b).natAbs := by
    rw [Nat.pow_add, Int.natAbs_mul]
    exact Nat.mul_le_mul (Nat.log2_self_le (by omega)) (Nat.log2_self_le (by omega))
  have hlog := (Nat.le_log2 (Int.natAbs_ne_zero.2 (mul_ne_zero ha hb))).2 hlow
  have htop := (Nat.log2_lt (Int.natAbs_ne_zero.2 (mul_ne_zero ha hb))).2 hlt
  unfold places
  omega

/-- The product of the numbers of two integers is the number of their product.

Assumes: the integers and the product are below `2 ^ 53` in magnitude. -/
theorem same_ofInt_mul (ha : a.natAbs < 2 ^ 53) (hb : b.natAbs < 2 ^ 53)
    (hab : (a * b).natAbs < 2 ^ 53) : Same (ofInt a * ofInt b) (ofInt (a * b)) := by
  have hmul : ofInt a * ofInt b = ofUnpacked
      (UnpackedFloat.mul binary64 (ofInt a).toModel.unpack (ofInt b).toModel.unpack) := rfl
  have hzero (s : Sign) : Same (ofUnpacked (.zero s)) (ofInt 0) :=
    Same.ofUnpacked (Alike.zeros _ _)
  rw [hmul]
  by_cases hazero : a = 0
  · subst hazero
    rw [zero_mul, unpack_ofInt_zero]
    by_cases hbzero : b = 0
    · rw [hbzero, unpack_ofInt_zero]
      exact hzero _
    · obtain ⟨hm, hform⟩ := unpack_ofInt hbzero hb
      rw [hform]
      exact hzero _
  by_cases hbzero : b = 0
  · subst hbzero
    obtain ⟨hm, hform⟩ := unpack_ofInt hazero ha
    rw [mul_zero, unpack_ofInt_zero, hform]
    exact hzero _
  obtain ⟨hma, hforma⟩ := unpack_ofInt hazero ha
  obtain ⟨hmb, hformb⟩ := unpack_ofInt hbzero hb
  obtain ⟨hm, hform⟩ := unpack_ofInt (mul_ne_zero hazero hbzero) hab
  have htarget := (canonical_of_eq_finite hform).target
  obtain ⟨k, hk⟩ := Nat.exists_eq_add_of_le (places_mul_le hazero hbzero hab)
  have hmantissa : a.natAbs * 2 ^ places a * (b.natAbs * 2 ^ places b) =
      (a * b).natAbs * 2 ^ places (a * b) * 2 ^ k := by
    rw [Int.natAbs_mul, Nat.mul_assoc _ _ (2 ^ k), ← Nat.pow_add, ← hk, Nat.pow_add]
    ring
  have hexponent : -(places a : Int) + -(places b : Int) = -(places (a * b) : Int) - k := by omega
  refine .of_eq ?_
  rw [hforma, hformb]
  change ofUnpacked (roundWithAccuracy binary64 (signOf a * signOf b) _ _ .exact) = _
  rw [hmantissa, hexponent, roundWithAccuracy_scale _ hm.ne' htarget.ge,
    roundWithAccuracy_target _ hm htarget, signOf_mul hazero hbzero, ← hform, ofUnpacked_unpack]

end Products

/-! ### Fractions -/

/-- A fraction as an extended mantissa. -/
def ofFraction (n d : Nat) : ExtendedMantissa :=
  .ofMantissaAndAccuracy (n / d) (accuracyOfFraction (n % d) d)

section Fractions

variable {n d : Nat}

/-- An extended mantissa keeps of a fraction how it compares with the next half. -/
theorem ofFraction_eq (hd : 0 < d) :
    ofFraction n d = ⟨n / d, decide (d ≤ 2 * (n % d)), !decide (2 * (n % d) = d ∨ n % d = 0)⟩ := by
  have hlt := Nat.mod_lt n hd
  unfold ofFraction accuracyOfFraction
  by_cases hzero : n % d = 0
  · rw [if_pos hzero, hzero, decide_eq_false (by omega), decide_eq_true (.inr rfl)]
    rfl
  · rw [if_neg hzero]
    rcases lt_trichotomy (2 * (n % d)) d with h | h | h
    · rw [compare_lt_iff_lt.2 h, decide_eq_false (by omega), decide_eq_false (by omega)]
      rfl
    · rw [compare_eq_iff_eq.2 h, decide_eq_true (by omega), decide_eq_true (.inl h)]
      rfl
    · rw [compare_gt_iff_gt.2 h, decide_eq_true (by omega), decide_eq_false (by omega)]
      rfl

/-- Shifting a fraction halves it. -/
theorem shiftRightOne_ofFraction (hd : 0 < d) :
    (ofFraction n d).shiftRightOne = ofFraction n (d * 2) := by
  have hlt := Nat.mod_lt n hd
  rw [ofFraction_eq hd, ofFraction_eq (by omega), ExtendedMantissa.shiftRightOne,
    ← Nat.div_div_eq_div_mul, Nat.mod_mul]
  rcases Nat.mod_two_eq_zero_or_one (n / d) with h | h
  · simp only [h, Nat.mul_zero, Nat.add_zero]
    congr 1
    · exact (decide_eq_false (by omega)).symm
    · grind
  · simp only [h, Nat.mul_one]
    congr 1
    · exact (decide_eq_true (by omega)).symm
    · grind

theorem shiftRight_ofFraction (hd : 0 < d) (k : Nat) :
    ofFraction n d >>> k = ofFraction n (d * 2 ^ k) := by
  induction k with
  | zero => rw [Nat.pow_zero, Nat.mul_one]; rfl
  | succ k ih =>
    have hsucc : ofFraction n d >>> (k + 1) = (ofFraction n d >>> k).shiftRightOne := rfl
    rw [hsucc, ih, shiftRightOne_ofFraction (Nat.mul_pos hd (Nat.two_pow_pos k)), Nat.pow_succ,
      Nat.mul_assoc]

/-- A fraction is rounded by a half at most. -/
theorem roundedMantissa_ofFraction (hd : 0 < d) :
    2 * n ≤ (2 * (ofFraction n d).roundedMantissa + 1) * d ∧
      2 * (ofFraction n d).roundedMantissa * d ≤ 2 * n + d := by
  have hlt := Nat.mod_lt n hd
  have hdiv := Nat.div_add_mod' n d
  have hbounds : (ofFraction n d).roundedMantissa = n / d ∧ 2 * (n % d) ≤ d ∨
      (ofFraction n d).roundedMantissa = n / d + 1 ∧ d ≤ 2 * (n % d) := by
    unfold ofFraction accuracyOfFraction
    by_cases hzero : n % d = 0
    · rw [if_pos hzero]
      exact .inl ⟨rfl, by omega⟩
    · rw [if_neg hzero]
      rcases lt_trichotomy (2 * (n % d)) d with h | h | h
      · rw [compare_lt_iff_lt.2 h]
        exact .inl ⟨rfl, h.le⟩
      · rw [compare_eq_iff_eq.2 h]
        rcases Nat.mod_two_eq_zero_or_one (n / d) with heven | hodd
        · exact .inl ⟨congrArg (n / d + ·) heven, h.le⟩
        · exact .inr ⟨congrArg (n / d + ·) hodd, h.ge⟩
      · rw [compare_gt_iff_gt.2 h]
        exact .inr ⟨rfl, h.le⟩
  generalize n / d = q at hdiv hbounds
  rcases hbounds with ⟨hround, hrest⟩ | ⟨hround, hrest⟩
  · rw [hround, Nat.add_mul, Nat.mul_assoc]
    omega
  · rw [hround, Nat.add_mul, Nat.mul_add, Nat.add_mul, Nat.mul_assoc]
    omega

theorem abs_roundedMantissa_sub_le (hd : 0 < d) :
    2 * |((ofFraction n d).roundedMantissa : ℚ) - n / d| ≤ 1 := by
  obtain ⟨hup, hdown⟩ := roundedMantissa_ofFraction (n := n) hd
  generalize (ofFraction n d).roundedMantissa = r at hup hdown ⊢
  have hpos : (0 : ℚ) < d := by exact_mod_cast hd
  have hup' : (2 : ℚ) * n ≤ (2 * r + 1) * d := by exact_mod_cast hup
  have hdown' : (2 : ℚ) * r * d ≤ 2 * n + d := by exact_mod_cast hdown
  have hle : (n : ℚ) / d ≤ r + 1 / 2 := (div_le_iff₀ hpos).2 (by linarith)
  have hge : (r : ℚ) - 1 / 2 ≤ n / d := (le_div_iff₀ hpos).2 (by linarith)
  have habs : |(r : ℚ) - n / d| ≤ 1 / 2 := abs_le.2 ⟨by linarith, by linarith⟩
  linarith

/-- A fraction of 53 bits is rounded to 53 bits, or to the next power of two. -/
theorem roundedMantissa_bounds (hd : 0 < d) (hlow : 2 ^ 52 * d ≤ n) (hhigh : n < 2 ^ 53 * d) :
    2 ^ 52 ≤ (ofFraction n d).roundedMantissa ∧ (ofFraction n d).roundedMantissa ≤ 2 ^ 53 := by
  obtain ⟨hup, hdown⟩ := roundedMantissa_ofFraction (n := n) hd
  generalize (ofFraction n d).roundedMantissa = r at hup hdown ⊢
  have hlow' : 2 ^ 53 ≤ 2 * r + 1 :=
    Nat.le_of_mul_le_mul_right (show 2 ^ 53 * d ≤ (2 * r + 1) * d by omega) hd
  have hhigh' : 2 * r < 2 ^ 54 + 1 :=
    Nat.lt_of_mul_lt_mul_right (show 2 * r * d < (2 ^ 54 + 1) * d by omega)
  omega

end Fractions

/-! ### Rounding a fraction -/

/-- Away from the least exponent, the exponent of the format leaves 53 bits. -/
theorem targetExponent_eq {m k : Nat} {e : Int} (hlog : m.log2 = 52 + k) (he : -1000 ≤ e + k) :
    binary64.targetExponent (totalExponent m e) = e + k := by
  rw [targetExponent, totalExponent, hlog, minExponent, mantissaBits]
  push_cast
  omega

theorem canonical_of_log2_eq {m : Nat} {e : Int} (hlog : m.log2 = 52) (hleast : -1000 ≤ e)
    (hmost : e ≤ 901) : Canonical binary64 m e := by
  refine ⟨targetExponent_eq (k := 0) hlog (by omega) |>.trans (by omega), ?_⟩
  change e + 1023 + 52 + 1 < 2048
  omega

/-- Where rounding up has carried to a 54th bit, the second shift drops a zero. -/
theorem exists_shiftToTargetExponent {m : Nat} {e : Int} (hlow : 2 ^ 52 ≤ m) (hhigh : m ≤ 2 ^ 53)
    (hleast : -1000 ≤ e) (hmost : e ≤ 900) :
    ∃ m' e', 0 < m' ∧
      shiftToTargetExponent binary64 m e .exact = (⟨m', false, false⟩, e') ∧
      Canonical binary64 m' e' ∧ (m' : ℚ) * 2 ^ e' = m * 2 ^ e := by
  rcases hhigh.lt_or_eq with hlt | rfl
  · have hlog : m.log2 = 52 := (Nat.log2_eq_iff (by omega)).2 ⟨hlow, hlt⟩
    have hcanonical := canonical_of_log2_eq hlog hleast (by omega)
    refine ⟨m, e, by omega, ?_, hcanonical, rfl⟩
    simp only [shiftToTargetExponent, shiftToExponent, hcanonical.target, sub_self, Int.toNat_zero,
      Nat.cast_zero, Int.add_zero]
    rfl
  · have htarget := targetExponent_eq (m := 2 ^ 53) (k := 1) (e := e) (by decide) (by omega)
    have hcanonical := canonical_of_log2_eq (m := 2 ^ 52) (e := e + 1) (by decide) (by omega)
      (by omega)
    refine ⟨2 ^ 52, e + 1, by decide, ?_, hcanonical, ?_⟩
    · simp only [shiftToTargetExponent, shiftToExponent, htarget, add_sub_cancel_left,
        Int.toNat_natCast]
      rfl
    · rw [zpow_add_one₀ two_ne_zero]
      push_cast
      ring

/-- A fraction with 53 bits or more before the point is rounded to 53 bits.

Assumes: `k` of the bits are dropped, and the exponent stays within the format. -/
theorem exists_roundWithAccuracy_ofFraction (s : Sign) {n d k : Nat} {e : Int} (hd : 0 < d)
    (hlow : 2 ^ 52 * (d * 2 ^ k) ≤ n) (hhigh : n < 2 ^ 53 * (d * 2 ^ k))
    (hleast : -1000 ≤ e + k) (hmost : e + k ≤ 900) :
    ∃ m e', ∃ hm : 0 < m, roundWithAccuracy binary64 s (n / d) e (accuracyOfFraction (n % d) d) =
        .finite s m e' hm ∧ Canonical binary64 m e' ∧
      (m : ℚ) * 2 ^ e' = (ofFraction n (d * 2 ^ k)).roundedMantissa * 2 ^ (e + k) := by
  have hunit : 0 < d * 2 ^ k := Nat.mul_pos hd (Nat.two_pow_pos k)
  have hlog : (n / d).log2 = 52 + k := by
    have hle : 2 ^ (52 + k) ≤ n / d := by
      rw [Nat.le_div_iff_mul_le hd, Nat.pow_add, Nat.mul_assoc, Nat.mul_comm (2 ^ k)]
      exact hlow
    have hlt : n / d < 2 ^ (52 + k + 1) := by
      rw [Nat.div_lt_iff_lt_mul hd, show 52 + k + 1 = 53 + k by omega, Nat.pow_add, Nat.mul_assoc,
        Nat.mul_comm (2 ^ k)]
      exact hhigh
    have hpos : 0 < 2 ^ (52 + k) := Nat.two_pow_pos _
    exact (Nat.log2_eq_iff (by omega)).2 ⟨hle, hlt⟩
  have hfirst : shiftToTargetExponent binary64 (n / d) e (accuracyOfFraction (n % d) d) =
      (ofFraction n (d * 2 ^ k), e + k) := by
    simp only [shiftToTargetExponent, shiftToExponent, targetExponent_eq hlog hleast,
      add_sub_cancel_left, Int.toNat_natCast]
    rw [← shiftRight_ofFraction hd]
    rfl
  obtain ⟨hlow', hhigh'⟩ := roundedMantissa_bounds hunit hlow hhigh
  obtain ⟨m, e', hm, hsecond, hcanonical, hvalue⟩ :=
    exists_shiftToTargetExponent hlow' hhigh' hleast hmost
  refine ⟨m, e', hm, ?_, hcanonical, hvalue⟩
  simp only [roundWithAccuracy, hfirst, hsecond, dif_neg hm.ne']

/-! ### Quotients -/

section Quotients

variable {n d : Int}

theorem apply_div (s t : Sign) : (s / t).apply 1 = s.apply 1 * t.apply 1 := by
  cases s <;> cases t <;> rfl

theorem apply_mul_self (s : Sign) : s.apply 1 * s.apply 1 = 1 := by
  cases s <;> rfl

/-- The quotient of two integers by their mantissas and exponents. -/
theorem intCast_div_eq {m m' : Nat} {e e' : Int} (hm' : 0 < m') (k : Nat)
    (hn : (m : ℚ) * 2 ^ e = n.natAbs) (hd : (m' : ℚ) * 2 ^ e' = d.natAbs) :
    (n : ℚ) / d = ((signOf n / signOf d).apply 1 : Int) *
      (((m * 2 ^ 53 : Nat) : ℚ) / (m' * 2 ^ k : Nat)) * 2 ^ (e - e' - 53 + k) := by
  have hne : (m' : ℚ) ≠ 0 := by exact_mod_cast hm'.ne'
  have hsign : ((signOf d).apply 1 : ℚ) * (signOf d).apply 1 = 1 := by
    exact_mod_cast apply_mul_self (signOf d)
  have hsignne : ((signOf d).apply 1 : ℚ) ≠ 0 := left_ne_zero_of_mul_eq_one hsign
  rw [← signOf_mul_natAbs n, ← signOf_mul_natAbs d, ← hn, ← hd, apply_div,
    zpow_add₀ two_ne_zero, zpow_sub₀ two_ne_zero, zpow_sub₀ two_ne_zero, zpow_natCast]
  push_cast
  rw [div_eq_iff (by positivity)]
  field_simp
  linear_combination (-(m : ℚ) * (signOf n).apply 1) * hsign

/-- The quotient of two full mantissas, with enough bits for rounding. -/
theorem divCore_eq {m m' : Nat} {e e' : Int} (hlog : m.log2 = 52) (hlog' : m'.log2 = 52)
    (he : -900 ≤ e - e') :
    divCore binary64 m e m' e' =
      (m * 2 ^ 53 / m', e - e' - 53, accuracyOfFraction (m * 2 ^ 53 % m') m') := by
  have htotal : totalExponent m e - totalExponent m' e' = e - e' := by
    rw [totalExponent, totalExponent, hlog, hlog']
    ring
  have htarget : min (e - e') (binary64.targetExponent (e - e')) = e - e' - 53 := by
    rw [targetExponent, minExponent, mantissaBits]
    push_cast
    omega
  have hshift : (e - e' - (e - e' - 53)).toNat = 53 := by omega
  simp only [divCore, htotal, htarget, hshift, Nat.shiftLeft_eq]

/-- The form of a quotient of two full mantissas, where `k` bits of the quotient are dropped. -/
theorem exists_unpack_div {x y : Float} {s t : Sign} {m m' k : Nat} {e e' : Int} {hm : 0 < m}
    {hm' : 0 < m'} (hx : x.toModel.unpack = .finite s m e hm)
    (hy : y.toModel.unpack = .finite t m' e' hm') (hlog : m.log2 = 52) (hlog' : m'.log2 = 52)
    (hlarge : 2 ^ 52 * (m' * 2 ^ k) ≤ m * 2 ^ 53) (hsmall : m * 2 ^ 53 < 2 ^ 53 * (m' * 2 ^ k))
    (hleast : -900 ≤ e - e') (hmost : e - e' + k ≤ 900) :
    ∃ r f hr, (x / y).toModel.unpack = .finite (s / t) r f hr ∧
      (r : ℚ) * 2 ^ f =
        (ofFraction (m * 2 ^ 53) (m' * 2 ^ k)).roundedMantissa * 2 ^ (e - e' - 53 + k) := by
  obtain ⟨r, f, hr, hround, hcanonical, hvalue⟩ := exists_roundWithAccuracy_ofFraction (s / t)
    (e := e - e' - 53) hm' hlarge hsmall (by omega) (by omega)
  refine ⟨r, f, hr, ?_, hvalue⟩
  change unpack binary64 (pack binary64
    (UnpackedFloat.div binary64 x.toModel.unpack y.toModel.unpack)) = _
  rw [hx, hy]
  simp only [UnpackedFloat.div, divCore_eq hlog hlog' hleast, hround]
  exact unpack_pack _ hr hcanonical

/-- The value of a quotient of two integers is a fraction of 53 bits that is rounded. -/
theorem exists_toRat_div (hn : n ≠ 0) (hd : d ≠ 0) (hnle : n.natAbs ≤ 2 ^ 53)
    (hdle : d.natAbs ≤ 2 ^ 53) :
    ∃ r e : Int, (ofInt n / ofInt d).isFinite ∧ toRat (ofInt n / ofInt d) = r * 2 ^ e ∧
      2 * |(r : ℚ) * 2 ^ e - n / d| ≤ 2 ^ e ∧ 2 ^ 52 * 2 ^ e ≤ |(n : ℚ) / d| := by
  obtain ⟨m, e, hm, hform, hlow, hhigh, hleast, hmost, hvalue⟩ := exists_unpack_ofInt hn hnle
  obtain ⟨m', e', hm', hform', hlow', hhigh', hleast', hmost', hvalue'⟩ :=
    exists_unpack_ofInt hd hdle
  -- The quotient of the mantissas has 53 bits or 54, of which the last is dropped.
  obtain ⟨k, hk, hlarge, hsmall⟩ : ∃ k ≤ 1, 2 ^ 52 * (m' * 2 ^ k) ≤ m * 2 ^ 53 ∧
      m * 2 ^ 53 < 2 ^ 53 * (m' * 2 ^ k) := by
    rcases le_or_gt m' m with h | h
    · exact ⟨1, le_rfl, by omega, by omega⟩
    · exact ⟨0, by omega, by omega, by omega⟩
  obtain ⟨r, f, hr, hunpack, hrounded⟩ := exists_unpack_div hform hform'
    ((Nat.log2_eq_iff hm.ne').2 ⟨hlow, hhigh⟩) ((Nat.log2_eq_iff hm'.ne').2 ⟨hlow', hhigh'⟩)
    hlarge hsmall (by omega) (by omega)
  have hunit : 0 < m' * 2 ^ k := Nat.mul_pos hm' (Nat.two_pow_pos k)
  have hquotient := intCast_div_eq hm' k hvalue hvalue'
  have hnear := abs_roundedMantissa_sub_le (n := m * 2 ^ 53) hunit
  have hpos : (0 : ℚ) < (m' * 2 ^ k : Nat) := by exact_mod_cast hunit
  have hbits : (2 : ℚ) ^ 52 ≤ (m * 2 ^ 53 : Nat) / (m' * 2 ^ k : Nat) :=
    (le_div_iff₀ hpos).2 (by exact_mod_cast hlarge)
  have hpow : (0 : ℚ) < 2 ^ (e - e' - 53 + k) := by positivity
  refine ⟨(signOf n / signOf d).apply 1 * (ofFraction (m * 2 ^ 53) (m' * 2 ^ k)).roundedMantissa,
    e - e' - 53 + k, isFinite_of_unpack hunpack rfl, ?_, ?_, ?_⟩
  · rw [toRat, hunpack, formToRat_finite, hrounded, Int.cast_mul, Int.cast_natCast, mul_assoc]
  · rw [hquotient, Int.cast_mul, Int.cast_natCast, ← sub_mul, ← mul_sub, abs_mul, abs_mul,
      abs_apply, Rat.one_mul, abs_of_pos hpow, ← mul_assoc]
    exact mul_le_of_le_one_left hpow.le hnear
  · rw [hquotient, abs_mul, abs_mul, abs_apply, Rat.one_mul, abs_of_pos hpow,
      abs_of_nonneg (le_trans (by positivity) hbits)]
    exact mul_le_mul_of_nonneg_right hbits hpow.le

/-- A fraction that is rounded to a multiple of `1 / u` keeps its floor.

Assumes: the multiple is within half of `1 / u` of the fraction, which has 53 bits. -/
theorem ediv_eq_of_near {r b u : Int} (hb : 0 < b) (hu : 0 < u) (hn : |n| ≤ 2 ^ 53)
    (hnear : 2 * |r * b - n * u| ≤ b) (hbits : 2 ^ 52 * b ≤ |n| * u) : r / u = n / b := by
  have hlow := Int.ediv_mul_le n hb.ne'
  have hhigh := Int.lt_ediv_add_one_mul_self n hb
  generalize n / b = p at hlow hhigh ⊢
  have hup := le_abs_self (r * b - n * u)
  have hdown := neg_abs_le (r * b - n * u)
  rw [Int.ediv_eq_iff_of_pos hu]
  constructor
  · by_contra! h
    have hleft : (r + 1) * b ≤ p * u * b := Int.mul_le_mul_of_nonneg_right h hb.le
    have hright : p * b * u ≤ n * u := Int.mul_le_mul_of_nonneg_right hlow hu.le
    nlinarith
  · -- Rounding up to the next integer is a tie, so that the fraction is an integer over 2.
    by_contra! h
    have hleft : (p * u + u) * b ≤ r * b := Int.mul_le_mul_of_nonneg_right h hb.le
    have hright : (n + 1) * u ≤ (p + 1) * b * u := Int.mul_le_mul_of_nonneg_right hhigh hu.le
    have hstep : u ≤ r * b - n * u := by linarith
    have hle : |n| * u ≤ 2 ^ 53 * u := Int.mul_le_mul_of_nonneg_right hn hu.le
    obtain rfl : b = 2 * u := by omega
    have hcancel : (2 : Int) ^ 53 ≤ |n| := Int.le_of_mul_le_mul_right (by linarith) hu
    have htie : u * (2 * r - n) = u * 1 := by linarith
    have hodd : 2 * r - n = 1 := Int.eq_of_mul_eq_mul_left hu.ne' htie
    rcases (abs_eq (by norm_num)).1 (le_antisymm hn hcancel) with heven | heven <;> omega

/-- A quotient that is rounded to a multiple of 1 or of a fraction of 1 keeps its floor. -/
theorem floor_div_eq_of_near {r : Int} {b u : Nat} (hb : 0 < b) (hu : 0 < u) (hn : |n| ≤ 2 ^ 53)
    (hnear : 2 * |(r : ℚ) / u - n / b| ≤ 1 / u) (hbits : 2 ^ 52 * (1 / u) ≤ |(n : ℚ) / b|) :
    ⌊(r : ℚ) / u⌋ = ⌊(n : ℚ) / b⌋ := by
  have hbpos : (0 : ℚ) < b := by exact_mod_cast hb
  have hupos : (0 : ℚ) < u := by exact_mod_cast hu
  have hnear' : 2 * |(r : ℚ) * b - n * u| ≤ b := by
    have hscale : (r : ℚ) * b - n * u = (r / u - n / b) * (u * b) := by field_simp
    rw [hscale, abs_mul, abs_of_pos (mul_pos hupos hbpos), ← mul_assoc]
    calc _ ≤ 1 / (u : ℚ) * (u * b) := mul_le_mul_of_nonneg_right hnear (by positivity)
      _ = b := by field_simp
  have hbits' : (2 : ℚ) ^ 52 * b ≤ |(n : ℚ)| * u := by
    have hscale : |(n : ℚ)| * u = |(n : ℚ) / b| * (u * b) := by
      rw [abs_div, abs_of_pos hbpos]
      field_simp
    rw [hscale]
    calc (2 : ℚ) ^ 52 * b = 2 ^ 52 * (1 / u) * (u * b) := by field_simp
      _ ≤ |(n : ℚ) / b| * (u * b) := mul_le_mul_of_nonneg_right hbits (by positivity)
  rw [Rat.floor_intCast_div_natCast, Rat.floor_intCast_div_natCast]
  exact ediv_eq_of_near (by exact_mod_cast hb) (by exact_mod_cast hu) hn
    (by exact_mod_cast hnear') (by exact_mod_cast hbits')

/-- A quotient that is rounded to a multiple of 2 is exact: it is `2 ^ 53` or `-2 ^ 53`. -/
theorem mul_zpow_eq_of_near {r e : Int} {b : Nat} (hb : 0 < b) (he : 0 < e) (hn : |n| ≤ 2 ^ 53)
    (hnear : 2 * |(r : ℚ) * 2 ^ e - n / b| ≤ 2 ^ e) (hbits : 2 ^ 52 * 2 ^ e ≤ |(n : ℚ) / b|) :
    (r : ℚ) * 2 ^ e = (n : ℚ) / b := by
  have htwo : (2 : ℚ) ≤ 2 ^ e := by
    have h := zpow_le_zpow_right₀ (one_le_two (α := ℚ)) (show 1 ≤ e by omega)
    rwa [zpow_one] at h
  have hone : (1 : ℚ) ≤ b := by exact_mod_cast hb
  have hn' : |(n : ℚ)| ≤ 2 ^ 53 := by exact_mod_cast hn
  have hproduct : (2 : ℚ) ^ e * b ≤ 2 := by
    rw [abs_div, Nat.abs_cast, le_div_iff₀ (by linarith)] at hbits
    linarith
  have hdivisor : (b : ℚ) = 1 := by nlinarith
  have hunit : (2 : ℚ) ^ e = 2 := by nlinarith
  rw [hdivisor, hunit, div_one] at hnear hbits ⊢
  have hlarge : |n| = 2 ^ 53 := by
    have hle : (2 : ℚ) ^ 53 ≤ |(n : ℚ)| := by linarith
    exact le_antisymm hn (by exact_mod_cast hle)
  have hnear' : 2 * |r * 2 - n| ≤ 2 := by exact_mod_cast hnear
  obtain ⟨hlow, hhigh⟩ := abs_le.1 (show |r * 2 - n| ≤ 1 by omega)
  have hexact : r * 2 = n := by
    rcases (abs_eq (by norm_num)).1 hlarge with h | h <;> omega
  exact_mod_cast hexact

/-- A rounded quotient keeps its floor. -/
theorem floor_mul_zpow {r e : Int} (hd : d ≠ 0) (hn : |n| ≤ 2 ^ 53)
    (hnear : 2 * |(r : ℚ) * 2 ^ e - n / d| ≤ 2 ^ e) (hbits : 2 ^ 52 * 2 ^ e ≤ |(n : ℚ) / d|) :
    ⌊(r : ℚ) * 2 ^ e⌋ = ⌊(n : ℚ) / d⌋ := by
  wlog hpos : 0 < d generalizing n d
  · have hneg : ((-n : Int) : ℚ) / (-d : Int) = n / d := by
      push_cast
      exact neg_div_neg_eq _ _
    have h := this (n := -n) (d := -d) (neg_ne_zero.2 hd) ((abs_neg n).symm ▸ hn)
      (hneg.symm ▸ hnear) (hneg.symm ▸ hbits) (by omega)
    rwa [hneg] at h
  obtain ⟨b, rfl⟩ := Int.eq_ofNat_of_zero_le hpos.le
  have hb : 0 < b := by exact_mod_cast hpos
  rw [Int.cast_natCast] at hnear hbits ⊢
  rcases le_or_gt e 0 with he | he
  · obtain ⟨u, hu, hunit⟩ : ∃ u : Nat, 0 < u ∧ (2 : ℚ) ^ e = 1 / u := by
      refine ⟨2 ^ (-e).toNat, Nat.two_pow_pos _, ?_⟩
      rw [Nat.cast_pow, ← zpow_natCast, Int.toNat_of_nonneg (by omega), zpow_neg, one_div, inv_inv]
      rfl
    rw [hunit, mul_one_div] at hnear
    rw [hunit] at hbits
    rw [hunit, mul_one_div]
    exact floor_div_eq_of_near hb hu hn hnear hbits
  · rw [mul_zpow_eq_of_near hb he hn hnear hbits]

/-- The floor and the ceiling of a quotient of integers are those of the exact quotient. -/
theorem floor_ceil_toRat_div (hd : d ≠ 0) (hn : n.natAbs ≤ 2 ^ 53) (hdle : d.natAbs ≤ 2 ^ 53) :
    (ofInt n / ofInt d).isFinite ∧ ⌊toRat (ofInt n / ofInt d)⌋ = ⌊(n : ℚ) / d⌋ ∧
      ⌈toRat (ofInt n / ofInt d)⌉ = ⌈(n : ℚ) / d⌉ := by
  by_cases hzero : n = 0
  · subst hzero
    obtain ⟨m, e, hm, hform, -⟩ := exists_unpack_ofInt hd hdle
    have hunpack : (ofInt 0 / ofInt d).toModel.unpack = .zero (.positive / signOf d) := by
      change unpack binary64 (pack binary64
        (UnpackedFloat.div binary64 (ofInt 0).toModel.unpack (ofInt d).toModel.unpack)) = _
      rw [unpack_ofInt_zero, hform]
      exact unpack_packedZero
    have hvalue : toRat (ofInt 0 / ofInt d) = ((0 : Int) : ℚ) / d := by
      rw [toRat, hunpack, Int.cast_zero, zero_div]
      rfl
    exact ⟨isFinite_of_unpack hunpack rfl, by rw [hvalue], by rw [hvalue]⟩
  · obtain ⟨r, e, hfinite, hvalue, hnear, hbits⟩ := exists_toRat_div hzero hd hn hdle
    have hn' : |n| ≤ 2 ^ 53 := by
      rw [Int.abs_eq_natAbs]
      exact_mod_cast hn
    refine ⟨hfinite, by rw [hvalue, floor_mul_zpow hd hn' hnear hbits], ?_⟩
    have hneg : -((r : ℚ) * 2 ^ e) = ((-r : Int) : ℚ) * 2 ^ e := by
      push_cast
      ring
    have hneg' : -((n : ℚ) / d) = ((-n : Int) : ℚ) / d := by
      push_cast
      ring
    rw [hvalue, ← neg_inj, ← Int.floor_neg, ← Int.floor_neg, hneg, hneg']
    refine floor_mul_zpow hd ((abs_neg n).symm ▸ hn') ?_ ?_
    · rw [← hneg, ← hneg', neg_sub_neg, abs_sub_comm]
      exact hnear
    · rw [← hneg', abs_neg]
      exact hbits

/-- The floor of a fraction is the quotient that is rounded down. -/
theorem floor_intCast_div (n : Int) (hd : d ≠ 0) : ⌊(n : ℚ) / d⌋ = n.fdiv d := by
  wlog hpos : 0 < d generalizing n d
  · have h := this (-n) (neg_ne_zero.2 hd) (by omega)
    rwa [Int.cast_neg, Int.cast_neg, neg_div_neg_eq, Int.neg_fdiv_neg] at h
  obtain ⟨b, rfl⟩ := Int.eq_ofNat_of_zero_le hpos.le
  rw [Int.cast_natCast, Rat.floor_intCast_div_natCast, Int.fdiv_eq_ediv_of_nonneg _ hpos.le]

theorem ceil_intCast_div (n : Int) (hd : d ≠ 0) : ⌈(n : ℚ) / d⌉ = -((-n).fdiv d) := by
  rw [← floor_intCast_div _ hd, Int.cast_neg, neg_div, Int.floor_neg, neg_neg]

/-- The floor of a quotient of integers. -/
theorem same_floor_div (hd : d ≠ 0) (hn : n.natAbs ≤ 2 ^ 53) (hdle : d.natAbs ≤ 2 ^ 53) :
    Same (floor (ofInt n / ofInt d)) (ofInt (n.fdiv d)) := by
  obtain ⟨hfinite, hfloor, -⟩ := floor_ceil_toRat_div hd hn hdle
  rw [floor_intCast_div n hd] at hfloor
  have hsame := same_floor hfinite (hfloor ▸ (Int.natAbs_fdiv_le_natAbs n d).trans hn)
  rwa [hfloor] at hsame

/-- The ceiling of a quotient of integers. -/
theorem same_ceil_div (hd : d ≠ 0) (hn : n.natAbs ≤ 2 ^ 53) (hdle : d.natAbs ≤ 2 ^ 53) :
    Same (ceil (ofInt n / ofInt d)) (ofInt (-((-n).fdiv d))) := by
  obtain ⟨hfinite, -, hceil⟩ := floor_ceil_toRat_div hd hn hdle
  rw [ceil_intCast_div n hd] at hceil
  have hle : (-((-n).fdiv d)).natAbs ≤ 2 ^ 53 := by
    have h := Int.natAbs_fdiv_le_natAbs (-n) d
    omega
  have hsame := same_ceil hfinite (hceil ▸ hle)
  rwa [hceil] at hsame

theorem natAbs_fmod_lt (n : Int) (hd : d ≠ 0) : (n.fmod d).natAbs < d.natAbs := by
  wlog hpos : 0 < d generalizing n d
  · have h := this (-n) (neg_ne_zero.2 hd) (by omega)
    rwa [Int.neg_fmod_neg, Int.natAbs_neg, Int.natAbs_neg] at h
  have hlow := Int.fmod_nonneg_of_pos n hpos
  have hhigh := Int.fmod_lt_of_pos n hpos
  omega

/-- The remainder of a division that rounds down. -/
theorem same_mod (hd : d ≠ 0) (hn : n.natAbs ≤ 2 ^ 52) (hdle : d.natAbs ≤ 2 ^ 52) :
    Same (ofInt n - ofInt d * floor (ofInt n / ofInt d)) (ofInt (n.fmod d)) := by
  have hfloor := same_floor_div hd (by omega) (by omega) (n := n)
  have hfdiv := Int.natAbs_fdiv_le_natAbs n d
  have hfmod := natAbs_fmod_lt n hd
  -- The product is at most `2 ^ 53`, since the remainder is less than the divisor.
  have hsplit : d * n.fdiv d = n - n.fmod d := by rw [Int.fmod_def]; ring
  have hproduct := ((Same.refl (ofInt d)).mul hfloor).trans
    (same_ofInt_mul (by omega) (by omega) (by omega))
  refine ((Same.refl (ofInt n)).sub hproduct).trans (.of_eq ?_)
  rw [ofInt_sub (by omega) (by omega), ← Int.fmod_def]

end Quotients

/-! ### Conversions -/

section Conversions

variable {n : Int}

/-- A number is whole if it has an integer as its value, however great. -/
theorem isWhole_iff {x : Float} : isWhole x ↔ x.isFinite ∧ ∃ n : Int, toRat x = n := by
  rw [isWhole, Bool.and_eq_true]
  refine and_congr_right fun hx ↦ ?_
  rcases floor_eq_self_or hx with ⟨hself, hvalue⟩ | ⟨hle, hsame⟩
  · rw [hself]
    exact iff_of_true ((beq_iff_toRat_eq hx hx).2 rfl) hvalue
  · rw [hsame.beq_eq (.refl x), beq_iff_toRat_eq (isFinite_ofInt_of_le hle) hx, toRat_ofInt hle]
    constructor
    · exact fun h ↦ ⟨_, h.symm⟩
    · rintro ⟨n, h⟩
      rw [h, Int.floor_intCast]

theorem isWhole_ofInt (hn : n.natAbs ≤ 2 ^ 53) : isWhole (ofInt n) :=
  isWhole_iff.2 ⟨isFinite_ofInt_of_le hn, n, toRat_ofInt hn⟩

/-- The integer that a whole number is. -/
def toInt (x : Float) : Int :=
  ⌊toRat x⌋

/-- A whole number is the number of its integer. -/
theorem same_ofInt_toInt {x : Float} (hx : isWhole x) (hle : (toInt x).natAbs ≤ 2 ^ 53) :
    Same x (ofInt (toInt x)) := by
  obtain ⟨hfinite, hfloor⟩ := Bool.and_eq_true_iff.1 hx
  exact (Same.of_beq hfloor).symm.trans (same_floor hfinite hle)

/-- The count of an integer's number: none for a negative integer. -/
theorem toUInt64_ofInt (hle : n.natAbs ≤ 2 ^ 53) :
    (ofInt n).toUInt64.toNat = n.toNat := by
  change (UInt64.ofNatClamp ((ofInt n).toModel.unpack.toInt 0 (UInt64.size - 1)).toNat).toNat = _
  have hint : (ofInt n).toModel.unpack.toInt 0 (UInt64.size - 1) = n := by
    by_cases hn : n = 0
    · rw [hn, unpack_ofInt_zero]
      rfl
    rcases hle.lt_or_eq with hlt | heq
    · obtain ⟨hm, hform⟩ := unpack_ofInt hn hlt
      have hexact := shiftRight_scale n.natAbs (places n) 0
      rw [Nat.zero_add] at hexact
      have hdecrease : (-(places n : Int)).toNat = 0 := by omega
      have hshift : (0 - -(places n : Int)).toNat = places n := by omega
      rw [hform, UnpackedFloat.toInt, roundToInt, decreaseExponent]
      simp only [hdecrease, Nat.shiftLeft_zero, Nat.cast_zero, Int.sub_zero, shiftToExponent,
        hshift, hexact]
      exact apply_signOf n
    · have hsign : n = 2 ^ 53 ∨ n = -2 ^ 53 := by omega
      rcases hsign with rfl | rfl <;> rfl
  rw [hint, UInt64.ofNatClamp, dif_pos (by rw [UInt64.size]; omega)]
  rfl

end Conversions

end Waypoints.Number
