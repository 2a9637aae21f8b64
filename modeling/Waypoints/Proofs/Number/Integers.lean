import Waypoints.Proofs.Number.Binary64
/-!
# Integers among the binary64 numbers

`Number.ofInt` is the number nearest to an integer. Below `2 ^ 53` an integer is its number exactly
(`unpack_ofInt`), so that sums and differences of such numbers are those of the integers, and the
extents of a board are finite.
-/

set_option autoImplicit false
set_option relaxedAutoImplicit false

namespace Waypoints.Number

open Float.Model (UnpackedFloat totalExponent)
open Float.Model.Format Float.Model.UnpackedFloat

/-- The binary64 number nearest to an integer. -/
def ofInt (n : Int) : Float :=
  ofUnpacked (UnpackedFloat.ofInt binary64 n)

theorem toFloat_eq_ofInt (n : UInt32) : n.toFloat = ofInt n.toNat :=
  rfl

theorem unpack_ofInt_zero : (ofInt 0).toModel.unpack = .zero .positive :=
  rfl

/-! ### The form of an integer -/

/-- What has the exponent of the format is not rounded. -/
theorem round_target {spec : Float.Model.Format} (s : Sign) {m : Nat} {e : Int} (hm : 0 < m)
    (he : spec.targetExponent (totalExponent m e) = e) :
    UnpackedFloat.round spec s m e = .finite s m e hm := by
  rw [← roundWithAccuracy_target s hm he]
  simp only [UnpackedFloat.round, he, decreaseExponent, sub_self, Int.toNat_zero,
    Nat.shiftLeft_zero, Nat.cast_zero, sub_zero]

theorem normalize_scale (spec : Float.Model.Format) (n : Int) (k : Nat) (e : Int) (z : Sign) :
    UnpackedFloat.normalize spec (n * 2 ^ k) (e - k) z = UnpackedFloat.normalize spec n e z := by
  have hpow : (0 : Int) < 2 ^ k := by positivity
  rcases lt_trichotomy n 0 with hn | rfl | hn
  · have hneg : n * 2 ^ k < 0 := mul_neg_of_neg_of_pos hn hpow
    have habs : (-(n * 2 ^ k)).toNat = (-n).toNat * 2 ^ k := by
      rw [← neg_mul, Int.toNat_mul (by omega) hpow.le]
      rfl
    simp only [UnpackedFloat.normalize, Int.compare_eq_lt.2 hn, Int.compare_eq_lt.2 hneg, habs]
    exact round_scale _ (by omega) k e
  · rw [zero_mul]
    rfl
  · have hpos : 0 < n * 2 ^ k := mul_pos hn hpow
    have habs : (n * 2 ^ k).toNat = n.toNat * 2 ^ k := by
      rw [Int.toNat_mul hn.le hpow.le]
      rfl
    simp only [UnpackedFloat.normalize, Int.compare_eq_gt.2 hn, Int.compare_eq_gt.2 hpos, habs]
    exact round_scale _ (by omega) k e

/-- The sign of an integer. -/
def signOf (n : Int) : Sign :=
  if n < 0 then .negative else .positive

/-- The binary places that fill the mantissa of an integer. -/
def places (n : Int) : Nat :=
  52 - n.natAbs.log2

theorem apply_mul (s : Sign) (a k : Int) : s.apply (a * k) = s.apply a * k := by
  cases s
  · exact (neg_mul a k).symm
  · rfl

theorem apply_signOf (n : Int) : (signOf n).apply n.natAbs = n := by
  unfold signOf
  split
  · change -(n.natAbs : Int) = n
    omega
  · change (n.natAbs : Int) = n
    omega

theorem unpackedOfInt_eq_round {n : Int} (hn : n ≠ 0) :
    UnpackedFloat.ofInt binary64 n = UnpackedFloat.round binary64 (signOf n) n.natAbs 0 := by
  unfold UnpackedFloat.ofInt UnpackedFloat.normalize signOf
  rcases lt_or_gt_of_ne hn with hneg | hpos
  · have habs : (-n).toNat = n.natAbs := by omega
    rw [Int.compare_eq_lt.2 hneg, if_pos hneg, ← habs]
  · have habs : n.toNat = n.natAbs := by omega
    rw [Int.compare_eq_gt.2 hpos, if_neg (by omega), ← habs]

/-- The form of an integer that is not zero.

Assumes: the integer is below `2 ^ 53` in magnitude. -/
theorem unpack_ofInt {n : Int} (hn : n ≠ 0) (hlt : n.natAbs < 2 ^ 53) :
    ∃ hm, (ofInt n).toModel.unpack =
      .finite (signOf n) (n.natAbs * 2 ^ places n) (-(places n : Int)) hm := by
  have hlog : n.natAbs.log2 < 53 := (Nat.log2_lt (by omega)).2 hlt
  have hm : 0 < n.natAbs * 2 ^ places n := Nat.mul_pos (by omega) (Nat.two_pow_pos _)
  have htarget : binary64.targetExponent
      (totalExponent (n.natAbs * 2 ^ places n) (-(places n : Int))) = -(places n : Int) := by
    rw [targetExponent, totalExponent, log2_mul_two_pow (by omega), minExponent, mantissaBits,
      places]
    push_cast
    omega
  have hfits : -(places n : Int) + 1023 + 52 + 1 < 2048 := by omega
  refine ⟨hm, ?_⟩
  rw [ofInt, unpack_ofUnpacked, unpackedOfInt_eq_round hn, ← round_scale _ (by omega) (places n),
    zero_sub, round_target _ hm htarget]
  exact unpack_pack _ hm ⟨htarget, hfits⟩

theorem isFinite_ofInt {n : Int} (hlt : n.natAbs < 2 ^ 53) : (ofInt n).isFinite := by
  change (ofInt n).toModel.unpack.isFinite
  by_cases hn : n = 0
  · rw [hn, unpack_ofInt_zero]
    rfl
  · obtain ⟨hm, hform⟩ := unpack_ofInt hn hlt
    rw [hform]
    rfl

/-! ### Differences -/

/-- The negative of an integer's number. -/
theorem neg_ofInt {n : Int} (hn : n ≠ 0) (hlt : n.natAbs < 2 ^ 53) : -ofInt n = ofInt (-n) := by
  have hsign : signOf (-n) = -signOf n := by
    unfold signOf
    rcases lt_or_gt_of_ne hn with hneg | hpos
    · rw [if_pos hneg, if_neg (show ¬-n < 0 by omega)]
      rfl
    · rw [if_pos (show -n < 0 by omega), if_neg (show ¬n < 0 by omega)]
      rfl
  obtain ⟨hm, hform⟩ := unpack_ofInt hn hlt
  obtain ⟨hm', hform'⟩ := unpack_ofInt (neg_ne_zero.2 hn) ((Int.natAbs_neg n).symm ▸ hlt)
  refine eq_of_unpack_eq ?_
  rw [unpack_neg, hform, hform', UnpackedFloat.neg, hsign]
  simp only [places, Int.natAbs_neg]

/-- An integer, read from its form with another power of two. -/
theorem apply_decreaseExponent (n : Int) {k : Nat} (hk : places n ≤ k) :
    (signOf n).apply (decreaseExponent (n.natAbs * 2 ^ places n) (-(places n : Int)) (-k)).1 =
      n * 2 ^ k := by
  have hshift : (-(places n : Int) - -(k : Int)).toNat = k - places n := by omega
  rw [decreaseExponent, hshift, Nat.shiftLeft_eq]
  rw [Nat.cast_mul, Nat.cast_mul, apply_mul, apply_mul, apply_signOf, mul_assoc]
  push_cast
  rw [← pow_add, Nat.add_sub_cancel' hk]

/-- The difference of the numbers of two integers is the number of their difference.

Assumes: the integers are below `2 ^ 53` in magnitude. -/
theorem ofInt_sub {a b : Int} (ha : a.natAbs < 2 ^ 53) (hb : b.natAbs < 2 ^ 53) :
    ofInt a - ofInt b = ofInt (a - b) := by
  by_cases hbzero : b = 0
  · subst hbzero
    rw [sub_zero]
    refine Eq.trans (congrArg ofUnpacked ?_) (ofUnpacked_unpack (ofInt a))
    by_cases hazero : a = 0
    · subst hazero
      rfl
    · obtain ⟨hm, hform⟩ := unpack_ofInt hazero ha
      rw [hform]
      rfl
  obtain ⟨hm', hform'⟩ := unpack_ofInt hbzero hb
  by_cases hazero : a = 0
  · subst hazero
    rw [zero_sub, ← neg_ofInt hbzero hb]
    refine congrArg ofUnpacked ?_
    rw [hform']
    rfl
  · obtain ⟨hm, hform⟩ := unpack_ofInt hazero ha
    have hmin : min (-(places a : Int)) (-(places b : Int)) =
        -(max (places a) (places b) : Nat) := by
      push_cast
      omega
    change ofUnpacked (sub binary64 (ofInt a).toModel.unpack (ofInt b).toModel.unpack) = _
    rw [hform, hform']
    simp only [sub]
    rw [hmin, apply_decreaseExponent a (le_max_left _ _),
      apply_decreaseExponent b (le_max_right _ _), ← sub_mul, ← zero_sub, normalize_scale]
    rfl

end Waypoints.Number
