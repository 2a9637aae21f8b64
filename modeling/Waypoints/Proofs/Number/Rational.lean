import Waypoints.Proofs.Number.SignOfZero
/-!
# Binary64 numbers as rationals

`Number.toRat` is the value of a finite number. Finite numbers compare as their values do
(`compare_unpack`), so that two of them with one value are the same up to the sign of a zero
(`same_of_toRat_eq`). The number of an integer has the integer as its value up to
`2 ^ 53`, and in this range the floor of a number is the floor of its value (`same_floor`).
-/

set_option autoImplicit false
set_option relaxedAutoImplicit false

namespace Waypoints.Number

open Float.Model (UnpackedFloat totalExponent)
open Float.Model.Format Float.Model.UnpackedFloat

/-! ### Values -/

/-- The value of a form. Infinities and NaN have none, and 0 stands for it. -/
def formToRat : UnpackedFloat → ℚ
  | .finite s m e _ => s.apply m * 2 ^ e
  | _ => 0

/-- The value of a finite number. -/
def toRat (x : Float) : ℚ :=
  formToRat x.toModel.unpack

/-- A finite number is a zero, or has a mantissa and an exponent. -/
theorem unpack_of_isFinite {x : Float} (hx : x.isFinite) :
    (∃ s, x.toModel.unpack = .zero s) ∨ ∃ s m e hm, x.toModel.unpack = .finite s m e hm := by
  have hform : x.toModel.unpack.isFinite := hx
  cases hunpack : x.toModel.unpack with
  | notANumber => rw [hunpack] at hform; cases hform
  | infinity s => rw [hunpack] at hform; cases hform
  | zero s => exact .inl ⟨s, rfl⟩
  | finite s m e hm => exact .inr ⟨s, m, e, hm, rfl⟩

theorem isFinite_of_unpack {x : Float} {u : UnpackedFloat} (h : x.toModel.unpack = u)
    (hu : u.isFinite) : x.isFinite := by
  change x.toModel.unpack.isFinite
  rwa [h]

/-- A number that is not finite is an infinity. -/
theorem exists_unpack_of_not_isFinite {x : Float} (hnan : x.isNaN = false) (hx : ¬ x.isFinite) :
    ∃ s, x.toModel.unpack = .infinity s := by
  change x.toModel.unpack.isNaN = false at hnan
  change ¬ x.toModel.unpack.isFinite at hx
  cases hunpack : x.toModel.unpack with
  | infinity s => exact ⟨s, rfl⟩
  | notANumber => rw [hunpack] at hnan; cases hnan
  | zero s => rw [hunpack] at hx; exact absurd rfl hx
  | finite s m e hm => rw [hunpack] at hx; exact absurd rfl hx

/-- The magnitude of a canonical form: its mantissa has 53 bits, or fewer at the least exponent. -/
theorem Canonical.bounds {m : Nat} {e : Int} (hm : 0 < m) (h : Canonical binary64 m e) :
    m < 2 ^ 53 ∧ -1074 ≤ e ∧ (-1074 < e → 2 ^ 52 ≤ m) := by
  have htarget := h.target
  rw [targetExponent, totalExponent, minExponent, mantissaBits] at htarget
  norm_num at htarget
  refine ⟨(Nat.log2_lt hm.ne').1 (by omega), by omega, fun he ↦ ?_⟩
  exact (Nat.le_log2 hm.ne').1 (by omega)

/-- Of two canonical forms the one with the smaller exponent is smaller. -/
theorem mul_zpow_lt_of_lt {m m' : Nat} {e e' : Int} (hm : 0 < m) (hm' : 0 < m')
    (h : Canonical binary64 m e) (h' : Canonical binary64 m' e') (he : e < e') :
    (m : ℚ) * 2 ^ e < m' * 2 ^ e' := by
  obtain ⟨hlt, hleast, -⟩ := h.bounds hm
  obtain ⟨-, -, hle⟩ := h'.bounds hm'
  have hnormal := hle (by omega)
  have hstep : (2 : ℚ) * 2 ^ e ≤ 2 ^ e' := by
    rw [mul_comm, ← zpow_add_one₀ two_ne_zero]
    exact zpow_le_zpow_right₀ one_le_two (by omega)
  calc (m : ℚ) * 2 ^ e < 2 ^ 53 * 2 ^ e := by
        have hpos : (0 : ℚ) < 2 ^ e := by positivity
        exact mul_lt_mul_of_pos_right (by exact_mod_cast hlt) hpos
    _ = 2 ^ 52 * (2 * 2 ^ e) := by ring
    _ ≤ m' * 2 ^ e' := mul_le_mul (by exact_mod_cast hnormal) hstep (by positivity) (by positivity)

/-- Canonical forms are ordered by their exponents first and then by their mantissas. -/
theorem compare_mul_zpow {m m' : Nat} {e e' : Int} (hm : 0 < m) (hm' : 0 < m')
    (h : Canonical binary64 m e) (h' : Canonical binary64 m' e') :
    (compare e e').then (compare m m') = compare ((m : ℚ) * 2 ^ e) (m' * 2 ^ e') := by
  rcases lt_trichotomy e e' with he | rfl | he
  · rw [compare_lt_iff_lt.2 he, compare_lt_iff_lt.2 (mul_zpow_lt_of_lt hm hm' h h' he)]
    rfl
  · have hpos : (0 : ℚ) < 2 ^ e := by positivity
    rw [compare_eq_iff_eq.2 rfl]
    change compare m m' = _
    rcases lt_trichotomy m m' with hlt | rfl | hlt
    · rw [compare_lt_iff_lt.2 hlt, compare_lt_iff_lt.2]
      exact mul_lt_mul_of_pos_right (by exact_mod_cast hlt) hpos
    · rw [compare_eq_iff_eq.2 rfl, compare_eq_iff_eq.2 rfl]
    · rw [compare_gt_iff_gt.2 hlt, compare_gt_iff_gt.2]
      exact mul_lt_mul_of_pos_right (by exact_mod_cast hlt) hpos
  · rw [compare_gt_iff_gt.2 he, compare_gt_iff_gt.2 (mul_zpow_lt_of_lt hm' hm h' h he)]
    rfl

theorem formToRat_positive {m : Nat} {e : Int} (hm : 0 < m) :
    formToRat (.finite .positive m e hm) = m * 2 ^ e := by
  rw [formToRat]
  rfl

theorem formToRat_negative {m : Nat} {e : Int} (hm : 0 < m) :
    formToRat (.finite .negative m e hm) = -(m * 2 ^ e) := by
  have happly : Sign.negative.apply (m : Int) = -(m : Int) := rfl
  rw [formToRat, happly]
  push_cast
  ring

theorem formToRat_finite (s : Sign) {m : Nat} {e : Int} (hm : 0 < m) :
    formToRat (.finite s m e hm) = s.apply 1 * (m * 2 ^ e) := by
  cases s with
  | positive => rw [formToRat_positive, show Sign.positive.apply 1 = 1 from rfl]; push_cast; ring
  | negative => rw [formToRat_negative, show Sign.negative.apply 1 = -1 from rfl]; push_cast; ring

theorem abs_apply (s : Sign) : |((s.apply 1 : Int) : ℚ)| = 1 := by
  cases s <;> norm_num [Sign.apply]

theorem compare_finite (s t : Sign) {m m' : Nat} {e e' : Int} (hm : 0 < m) (hm' : 0 < m')
    (h : Canonical binary64 m e) (h' : Canonical binary64 m' e') :
    (UnpackedFloat.finite s m e hm).compare (.finite t m' e' hm') =
      some (compare (formToRat (.finite s m e hm)) (formToRat (.finite t m' e' hm'))) := by
  have hpos : (0 : ℚ) < m * 2 ^ e := by positivity
  have hpos' : (0 : ℚ) < m' * 2 ^ e' := by positivity
  cases s <;> cases t <;> simp only [formToRat_positive, formToRat_negative]
  · change some ((compare e e').then (compare m m')).swap = _
    rw [compare_mul_zpow hm hm' h h']
    rcases lt_trichotomy ((m : ℚ) * 2 ^ e) (m' * 2 ^ e') with hlt | heq | hgt
    · rw [compare_lt_iff_lt.2 hlt, compare_gt_iff_gt.2 (neg_lt_neg hlt)]
      rfl
    · rw [heq, compare_eq_iff_eq.2 rfl, compare_eq_iff_eq.2 rfl]
      rfl
    · rw [compare_gt_iff_gt.2 hgt, compare_lt_iff_lt.2 (neg_lt_neg hgt)]
      rfl
  · exact congrArg some (compare_lt_iff_lt.2 (by linarith)).symm
  · exact congrArg some (compare_gt_iff_gt.2 (by linarith)).symm
  · exact congrArg some (compare_mul_zpow hm hm' h h')

/-- Zero compares with a finite form by the sign of the form. -/
theorem compare_zero (s t : Sign) {m : Nat} {e : Int} (hm : 0 < m) :
    (UnpackedFloat.zero s).compare (.finite t m e hm) =
        some (compare 0 (formToRat (.finite t m e hm))) ∧
      (UnpackedFloat.finite t m e hm).compare (.zero s) =
        some (compare (formToRat (.finite t m e hm)) 0) := by
  have hpos : (0 : ℚ) < m * 2 ^ e := by positivity
  cases t with
  | positive =>
    rw [formToRat_positive, compare_lt_iff_lt.2 hpos, compare_gt_iff_gt.2 hpos]
    exact ⟨rfl, rfl⟩
  | negative =>
    rw [formToRat_negative, compare_gt_iff_gt.2 (neg_neg_of_pos hpos),
      compare_lt_iff_lt.2 (neg_neg_of_pos hpos)]
    exact ⟨rfl, rfl⟩

section Comparisons

variable {x y : Float}

/-- Finite numbers compare as their values. -/
theorem compare_unpack (hx : x.isFinite) (hy : y.isFinite) :
    x.toModel.unpack.compare y.toModel.unpack = some (compare (toRat x) (toRat y)) := by
  unfold toRat
  rcases unpack_of_isFinite hx with ⟨s, h⟩ | ⟨s, m, e, hm, h⟩ <;>
    rcases unpack_of_isFinite hy with ⟨t, h'⟩ | ⟨t, m', e', hm', h'⟩ <;> rw [h, h']
  · exact congrArg some (compare_eq_iff_eq.2 rfl).symm
  · exact (compare_zero s t hm').1
  · exact (compare_zero t s hm).2
  · exact compare_finite s t hm hm' (canonical_of_eq_finite h) (canonical_of_eq_finite h')

theorem lt_iff_toRat_lt (hx : x.isFinite) (hy : y.isFinite) : x < y ↔ toRat x < toRat y := by
  rw [lt_iff_lt, UnpackedFloat.lt, compare_unpack hx hy, beq_iff_eq, Option.some_inj,
    compare_lt_iff_lt]

theorem le_iff_toRat_le (hx : x.isFinite) (hy : y.isFinite) : x ≤ y ↔ toRat x ≤ toRat y := by
  rw [le_iff_le, UnpackedFloat.le, compare_unpack hx hy, Option.any_some, ← compare_le_iff_le]
  cases compare (toRat x) (toRat y) <;> decide

theorem beq_iff_toRat_eq (hx : x.isFinite) (hy : y.isFinite) :
    (x == y) = true ↔ toRat x = toRat y := by
  change x.toModel.unpack.beq y.toModel.unpack ↔ _
  rw [UnpackedFloat.beq, compare_unpack hx hy, beq_iff_eq, Option.some_inj, compare_eq_iff_eq]

/-- Numbers of one value are the same up to the sign of a zero. -/
theorem same_of_toRat_eq (hx : x.isFinite) (hy : y.isFinite) (h : toRat x = toRat y) : Same x y :=
  .of_beq ((beq_iff_toRat_eq hx hy).2 h)

/-- Numbers that are the same have one value. -/
theorem Same.toRat_eq (h : Same x y) : toRat x = toRat y := by
  rcases h.eq_or with rfl | ⟨s, t, hx, hy⟩
  · rfl
  · rw [toRat, toRat, hx, hy]
    rfl

end Comparisons

/-! ### Integers -/

/-- The form of an integer of at most `2 ^ 53` that is not zero has a full mantissa. -/
theorem exists_unpack_ofInt {n : Int} (hn : n ≠ 0) (hle : n.natAbs ≤ 2 ^ 53) :
    ∃ m e, ∃ hm : 0 < m, (ofInt n).toModel.unpack = .finite (signOf n) m e hm ∧
      2 ^ 52 ≤ m ∧ m < 2 ^ 53 ∧ -52 ≤ e ∧ e ≤ 1 ∧ (m : ℚ) * 2 ^ e = n.natAbs := by
  rcases hle.lt_or_eq with hlt | heq
  · obtain ⟨hm, hform⟩ := unpack_ofInt hn hlt
    have hlog : n.natAbs.log2 < 53 := (Nat.log2_lt (by omega)).2 hlt
    have hfull : (n.natAbs * 2 ^ places n).log2 = 52 := by
      rw [log2_mul_two_pow (by omega), places]
      omega
    obtain ⟨hlow, hhigh⟩ := (Nat.log2_eq_iff hm.ne').1 hfull
    refine ⟨_, _, hm, hform, hlow, hhigh, by rw [places]; omega, by omega, ?_⟩
    rw [zpow_neg, zpow_natCast]
    push_cast
    field_simp
  · have hsign : n = 2 ^ 53 ∨ n = -2 ^ 53 := by omega
    rcases hsign with rfl | rfl
    · exact ⟨2 ^ 52, 1, Nat.two_pow_pos 52, rfl, by norm_num, by norm_num, by norm_num, le_rfl,
        by norm_num⟩
    · exact ⟨2 ^ 52, 1, Nat.two_pow_pos 52, rfl, by norm_num, by norm_num, by norm_num, le_rfl,
        by norm_num⟩

section Integers

variable {n a b : Int}

theorem isFinite_ofInt_of_le (hle : n.natAbs ≤ 2 ^ 53) : (ofInt n).isFinite := by
  by_cases hn : n = 0
  · exact hn ▸ isFinite_of_unpack unpack_ofInt_zero rfl
  · obtain ⟨m, e, hm, hform, -⟩ := exists_unpack_ofInt hn hle
    exact isFinite_of_unpack hform rfl

theorem signOf_mul_natAbs (n : Int) : ((signOf n).apply 1 : ℚ) * n.natAbs = n := by
  have happly := apply_signOf n
  rw [← Int.one_mul (n.natAbs : Int), apply_mul] at happly
  have hcast := congrArg (Int.cast : Int → ℚ) happly
  rwa [Int.cast_mul, Int.cast_natCast] at hcast

/-- The number of an integer of at most `2 ^ 53` has the integer as its value. -/
theorem toRat_ofInt (hle : n.natAbs ≤ 2 ^ 53) : toRat (ofInt n) = n := by
  rw [toRat]
  by_cases hn : n = 0
  · rw [hn, unpack_ofInt_zero]
    rfl
  · obtain ⟨m, e, hm, hform, -, -, -, -, hvalue⟩ := exists_unpack_ofInt hn hle
    rw [hform, formToRat_finite, hvalue, signOf_mul_natAbs]

theorem ofInt_lt_iff (ha : a.natAbs ≤ 2 ^ 53) (hb : b.natAbs ≤ 2 ^ 53) :
    ofInt a < ofInt b ↔ a < b := by
  rw [lt_iff_toRat_lt (isFinite_ofInt_of_le ha) (isFinite_ofInt_of_le hb), toRat_ofInt ha,
    toRat_ofInt hb, Int.cast_lt]

theorem ofInt_le_iff (ha : a.natAbs ≤ 2 ^ 53) (hb : b.natAbs ≤ 2 ^ 53) :
    ofInt a ≤ ofInt b ↔ a ≤ b := by
  rw [le_iff_toRat_le (isFinite_ofInt_of_le ha) (isFinite_ofInt_of_le hb), toRat_ofInt ha,
    toRat_ofInt hb, Int.cast_le]

theorem ofInt_beq_iff (ha : a.natAbs ≤ 2 ^ 53) (hb : b.natAbs ≤ 2 ^ 53) :
    (ofInt a == ofInt b) = true ↔ a = b := by
  rw [beq_iff_toRat_eq (isFinite_ofInt_of_le ha) (isFinite_ofInt_of_le hb), toRat_ofInt ha,
    toRat_ofInt hb, Int.cast_inj]

/-- A number with an integer as its value is the number of the integer. -/
theorem same_ofInt_of_toRat_eq {x : Float} (hx : x.isFinite) (hle : n.natAbs ≤ 2 ^ 53)
    (hvalue : toRat x = n) : Same x (ofInt n) :=
  same_of_toRat_eq hx (isFinite_ofInt_of_le hle) (hvalue.trans (toRat_ofInt hle).symm)

end Integers

/-! ### Negatives -/

section Negatives

variable {x : Float}

theorem isFinite_neg (hx : x.isFinite) : (-x).isFinite := by
  refine isFinite_of_unpack (unpack_neg x) ?_
  rcases unpack_of_isFinite hx with ⟨s, h⟩ | ⟨s, m, e, hm, h⟩ <;> rw [h] <;> rfl

theorem toRat_neg (x : Float) : toRat (-x) = -toRat x := by
  rw [toRat, toRat, unpack_neg]
  cases x.toModel.unpack with
  | finite s m e hm =>
    cases s with
    | positive => exact (formToRat_negative hm).trans (by rw [formToRat_positive])
    | negative => exact (formToRat_positive hm).trans (by rw [formToRat_negative, neg_neg])
  | _ => exact neg_zero.symm

theorem same_neg_ofInt_of_le {n : Int} (hle : n.natAbs ≤ 2 ^ 53) :
    Same (-ofInt n) (ofInt (-n)) := by
  refine same_ofInt_of_toRat_eq (isFinite_neg (isFinite_ofInt_of_le hle))
    ((Int.natAbs_neg n).symm ▸ hle) ?_
  rw [toRat_neg, toRat_ofInt hle, Int.cast_neg]

end Negatives

/-! ### Sums at the limit -/

section Sums

variable {a b : Int}

/-- The difference of two integers is exact where the first is the largest exact one, too.

Assumes: the first integer is at most `2 ^ 53` in magnitude, the second one and the difference at
most `2 ^ 52`. -/
theorem same_ofInt_sub_of_le (ha : a.natAbs ≤ 2 ^ 53) (hb : b.natAbs ≤ 2 ^ 52)
    (hab : (a - b).natAbs ≤ 2 ^ 52) : Same (ofInt a - ofInt b) (ofInt (a - b)) := by
  rcases ha.lt_or_eq with hlt | heq
  · exact .of_eq (ofInt_sub hlt (by omega))
  · -- the largest integer leaves its half only if the other one is its half
    rcases Int.natAbs_eq a with hpos | hneg
    · obtain rfl : a = 2 ^ 53 := by omega
      obtain rfl : b = 2 ^ 52 := by omega
      exact .of_eq (by rfl)
    · obtain rfl : a = -2 ^ 53 := by omega
      obtain rfl : b = -2 ^ 52 := by omega
      exact .of_eq (by rfl)

/-- The sum of two integers is exact where the second is the largest exact one, too.

Assumes: the second integer is at most `2 ^ 53` in magnitude, the first one and the sum at most
`2 ^ 52`. -/
theorem same_ofInt_add_of_le (ha : a.natAbs ≤ 2 ^ 52) (hb : b.natAbs ≤ 2 ^ 53)
    (hab : (a + b).natAbs ≤ 2 ^ 52) : Same (ofInt a + ofInt b) (ofInt (a + b)) := by
  rcases hb.lt_or_eq with hlt | heq
  · exact same_ofInt_add (by omega) hlt
  · rcases Int.natAbs_eq b with hpos | hneg
    · obtain rfl : b = 2 ^ 53 := by omega
      obtain rfl : a = -2 ^ 52 := by omega
      exact .of_eq (by rfl)
    · obtain rfl : b = -2 ^ 53 := by omega
      obtain rfl : a = 2 ^ 52 := by omega
      exact .of_eq (by rfl)

end Sums

/-! ### Floors -/

/-- The floor of a fraction. -/
theorem floor_natCast_div (m d : Nat) : ⌊(m : ℚ) / d⌋ = (m / d : Nat) := by
  have hfloor := Rat.floor_intCast_div_natCast m d
  rwa [Int.cast_natCast, ← Int.natCast_ediv] at hfloor

/-- The floor of a negative fraction, by a division that is rounded up. -/
theorem floor_neg_natCast_div (m : Nat) {d : Nat} (hd : 0 < d) :
    ⌊-((m : ℚ) / d)⌋ = -((m + (d - 1)) / d : Nat) := by
  have hpos : (0 : ℚ) < d := by exact_mod_cast hd
  have hlow : (m + (d - 1)) / d * d ≤ m + (d - 1) := Nat.div_mul_le_self _ _
  have hhigh : m + (d - 1) < ((m + (d - 1)) / d + 1) * d := by
    rw [Nat.mul_comm]
    exact Nat.lt_mul_div_succ _ hd
  generalize (m + (d - 1)) / d = c at hlow hhigh ⊢
  have hlow' : (c : ℚ) * d < m + d := by exact_mod_cast (show c * d < m + d by omega)
  have hhigh' : (m : ℚ) ≤ c * d := by
    rw [Nat.add_mul, Nat.one_mul] at hhigh
    exact_mod_cast (show m ≤ c * d by omega)
  rw [Int.floor_eq_iff]
  push_cast
  constructor
  · exact neg_le_neg ((div_le_iff₀ hpos).2 hhigh')
  · have hdiv : (c : ℚ) - 1 < m / d := (lt_div_iff₀ hpos).2 (by linarith)
    linarith

theorem div_add_pred_le (m : Nat) {d : Nat} (hd : 0 < d) : (m + (d - 1)) / d ≤ m := by
  rw [Nat.div_le_iff_le_mul_add_pred hd]
  nlinarith

/-- The floor of a number with binary places. -/
theorem same_floor_fraction (s : Sign) (m k : Nat) :
    m < 2 ^ 53 → Same (match s with
      | .positive => ofNat (m / 2 ^ k)
      | .negative => -ofNat ((m + (2 ^ k - 1)) / 2 ^ k))
      (ofInt ⌊(s.apply 1 : ℚ) * (m * 2 ^ (-(k : Int)))⌋) := by
  intro hm
  have hunit : 0 < 2 ^ k := Nat.two_pow_pos k
  have hquotient : (m : ℚ) * 2 ^ (-(k : Int)) = m / (2 ^ k : Nat) := by
    rw [zpow_neg, zpow_natCast]
    push_cast
    rw [div_eq_mul_inv]
  rw [hquotient]
  cases s with
  | positive =>
    have hone : ((Sign.positive.apply 1 : Int) : ℚ) = 1 := rfl
    rw [hone, Rat.one_mul, floor_natCast_div]
    exact .refl _
  | negative =>
    have hnegative : ((Sign.negative.apply 1 : Int) : ℚ) = -1 := rfl
    rw [hnegative, Rat.neg_mul, Rat.one_mul, floor_neg_natCast_div _ hunit]
    refine same_neg_ofInt ?_
    have hdiv : (m + (2 ^ k - 1)) / 2 ^ k ≤ m := div_add_pred_le m hunit
    change (m + (2 ^ k - 1)) / 2 ^ k < 2 ^ 53
    omega

theorem natAbs_floor_le {q : ℚ} {m : Nat} (h : |q| ≤ m) : ⌊q⌋.natAbs ≤ m := by
  obtain ⟨hlow, hhigh⟩ := abs_le.1 h
  have hfloor : -(m : Int) ≤ ⌊q⌋ := Int.le_floor.2 (by push_cast; exact hlow)
  have hfloor' : ⌊q⌋ ≤ m := Int.cast_le.1 ((Int.floor_le q).trans (by exact_mod_cast hhigh))
  omega

/-- A finite number has an integer as its value and is its own floor, or it has binary places and is
less than `2 ^ 53`. -/
theorem floor_eq_self_or {x : Float} (hx : x.isFinite) :
    (floor x = x ∧ ∃ n : Int, toRat x = n) ∨
      ⌊toRat x⌋.natAbs ≤ 2 ^ 53 ∧ Same (floor x) (ofInt ⌊toRat x⌋) := by
  rcases unpack_of_isFinite hx with ⟨s, hunpack⟩ | ⟨s, m, e, hm, hunpack⟩
  · refine .inl ⟨by simp only [floor, hunpack], 0, ?_⟩
    rw [toRat, hunpack]
    rfl
  have hvalue : toRat x = s.apply 1 * (m * 2 ^ e) := by rw [toRat, hunpack, formToRat_finite]
  have hmant := (Canonical.bounds hm (canonical_of_eq_finite hunpack)).1
  by_cases he : 0 ≤ e
  · obtain ⟨k, rfl⟩ := Int.eq_ofNat_of_zero_le he
    refine .inl ⟨by simp only [floor, hunpack, if_pos he], s.apply 1 * (m * 2 ^ k), ?_⟩
    rw [hvalue, zpow_natCast]
    push_cast
    rfl
  · obtain ⟨k, rfl⟩ : ∃ k : Nat, e = -(k : Int) := ⟨(-e).toNat, by omega⟩
    have hexponent : (- -(k : Int)).toNat = k := by omega
    refine .inr ⟨?_, ?_⟩
    · have hle : |toRat x| ≤ m := by
        have hunit : (2 : ℚ) ^ (-(k : Int)) ≤ 1 := zpow_le_one_of_nonpos₀ one_le_two (by omega)
        rw [hvalue, abs_mul, abs_apply, Rat.one_mul, abs_of_nonneg (by positivity)]
        exact mul_le_of_le_one_right (Nat.cast_nonneg m) hunit
      exact (natAbs_floor_le hle).trans hmant.le
    · simp only [floor, hunpack, if_neg he]
      rw [hvalue, hexponent]
      exact same_floor_fraction s m k hmant

/-- The floor of a number is the number of the floor of its value.

Assumes: the floor is at most `2 ^ 53` in magnitude. -/
theorem same_floor {x : Float} (hx : x.isFinite) (hle : ⌊toRat x⌋.natAbs ≤ 2 ^ 53) :
    Same (floor x) (ofInt ⌊toRat x⌋) := by
  rcases floor_eq_self_or hx with ⟨hself, n, hvalue⟩ | ⟨-, hsame⟩
  · rw [hvalue, Int.floor_intCast] at hle ⊢
    rw [hself]
    exact same_ofInt_of_toRat_eq hx hle hvalue
  · exact hsame

/-- The ceiling of a number is the number of the ceiling of its value.

Assumes: the ceiling is at most `2 ^ 53` in magnitude. -/
theorem same_ceil {x : Float} (hx : x.isFinite) (hle : ⌈toRat x⌉.natAbs ≤ 2 ^ 53) :
    Same (ceil x) (ofInt ⌈toRat x⌉) := by
  have hfloor : ⌊toRat (-x)⌋ = -⌈toRat x⌉ := by rw [toRat_neg, Int.floor_neg]
  have hle' : (-⌈toRat x⌉).natAbs ≤ 2 ^ 53 := (Int.natAbs_neg _).symm ▸ hle
  have hneg := (same_floor (isFinite_neg hx) (hfloor.symm ▸ hle')).neg
  rw [hfloor] at hneg
  have hback := same_neg_ofInt_of_le hle'
  rw [neg_neg] at hback
  exact hneg.trans hback

end Waypoints.Number
