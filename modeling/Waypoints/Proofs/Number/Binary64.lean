import Mathlib
import Waypoints.Number.Decimal
import Waypoints.Number.Whole
/-!
# Binary64 numbers

What proofs about numbers use of the binary64 format. A number is known by its unpacked form
(`ofUnpacked_unpack`), and a finite form that is `Canonical` survives packing (`unpack_pack`).
Rounding depends on the number alone, not on how it is written as a mantissa and an exponent
(`round_scale`), so that products with the units are exact (`one_mul`, `neg_one_mul`). The last
section says which operations give a NaN.
-/

set_option autoImplicit false
set_option relaxedAutoImplicit false

namespace Waypoints.Number

open Float.Model (UnpackedFloat totalExponent)
open Float.Model.Format Float.Model.UnpackedFloat

/-! ### Packing -/

section Packing

variable {spec : Float.Model.Format} (s : Sign)

theorem unpack_packedInfinity :
    unpack spec (packedInfinity spec s) = .infinity s := by
  simp only [unpack, packedInfinity, unpackExponent_packComponents,
    unpackMantissa_packComponents, unpackSign_packComponents, if_true, Sign.ofBitVec_toBitVec]
  rfl

theorem unpack_normal {e : BitVec spec.exponentBits} (hbottom : e ≠ 0#_) (htop : e ≠ -1#_)
    (m : BitVec spec.mantissaBitsWithoutImplicit) :
    unpack spec (packComponents spec s e m) =
      .finite s (1#1 ++ m).toNat (e.toNat - (spec.exponentBias + spec.mantissaBitsWithoutImplicit))
        (by simp) := by
  simp only [unpack, unpackExponent_packComponents, unpackMantissa_packComponents,
    unpackSign_packComponents, if_neg hbottom, if_neg htop, Sign.ofBitVec_toBitVec]

theorem unpack_subnormal {m : BitVec spec.mantissaBitsWithoutImplicit} (hm : 0 < m.toNat) :
    unpack spec (packComponents spec s 0#_ m) =
      .finite s m.toNat (1 - (spec.exponentBias + spec.mantissaBitsWithoutImplicit)) hm := by
  have htop : BitVec.ofNat spec.exponentBits 0 ≠ -1#_ := by simp [spec.he.ne']
  have hne : m ≠ 0#_ := by
    rintro rfl
    simp at hm
  simp only [unpack, unpackExponent_packComponents, unpackMantissa_packComponents,
    unpackSign_packComponents, if_neg htop, if_true, dif_neg hne, Sign.ofBitVec_toBitVec]
  congr 1
  simp
  omega

/-- A form of a number of a sign: a zero, a finite form or an infinity. -/
inductive HasSign (s : Sign) : UnpackedFloat → Prop
  | zero : HasSign s (.zero s)
  | finite {m : Nat} {e : Int} {hm : 0 < m} : HasSign s (.finite s m e hm)
  | infinity : HasSign s (.infinity s)

theorem HasSign.isNaN_eq {s : Sign} {u : UnpackedFloat} (h : HasSign s u) : u.isNaN = false := by
  cases h <;> rfl

theorem hasSign_unpack_packComponents {e : BitVec spec.exponentBits} (htop : e ≠ -1#_)
    (m : BitVec spec.mantissaBitsWithoutImplicit) :
    HasSign s (unpack spec (packComponents spec s e m)) := by
  simp only [unpack, unpackExponent_packComponents, unpackSign_packComponents,
    Sign.ofBitVec_toBitVec, if_neg htop]
  split
  · split
    · exact .zero
    · exact .finite
  · exact .finite

/-- A finite form overflows to an infinity of its sign, never to a NaN. -/
theorem hasSign_unpack_pack_finite {m : Nat} {e : Int} (hm : 0 < m) :
    HasSign s (unpack spec (pack spec (.finite s m e hm))) := by
  simp only [pack]
  split
  · rw [unpack_packedInfinity]
    exact .infinity
  · next hfits =>
    have hpos : 0 < 2 ^ spec.exponentBits := Nat.two_pow_pos _
    split
    · refine hasSign_unpack_packComponents s (fun h ↦ ?_) _
      have hones := congrArg BitVec.toNat h
      rw [BitVec.toNat_ofNat, Nat.mod_eq_of_lt (by omega), BitVec.neg_one_eq_allOnes,
        BitVec.toNat_allOnes] at hones
      omega
    · exact hasSign_unpack_packComponents s (by simp [spec.he.ne']) _

theorem toNat_leading_one {n : Nat} (v : BitVec n) : (1#1 ++ v).toNat = 2 ^ n + v.toNat := by
  have hsum := Nat.two_pow_add_eq_or_of_lt v.isLt 1
  rw [Nat.mul_one] at hsum
  rw [BitVec.toNat_append, BitVec.toNat_ofNat, Nat.mod_eq_of_lt (by decide), Nat.one_shiftLeft,
    ← hsum]

/-- A mantissa and an exponent as the format stores them. -/
structure Canonical (spec : Float.Model.Format) (m : Nat) (e : Int) : Prop where
  target : spec.targetExponent (totalExponent m e) = e
  fits : e + spec.exponentBias + spec.mantissaBitsWithoutImplicit + 1 < 2 ^ spec.exponentBits

theorem minExponent_eq (spec : Float.Model.Format) :
    spec.minExponent = 1 - (spec.exponentBias + spec.mantissaBitsWithoutImplicit) := by
  have hpos : 0 < 2 ^ (spec.exponentBits - 1) := Nat.two_pow_pos _
  have hbias : (spec.exponentBias : Int) = 2 ^ (spec.exponentBits - 1) - 1 := by
    rw [exponentBias, Nat.cast_sub hpos]
    simp
  rw [minExponent, mantissaBits, hbias]
  push_cast
  ring

/-- A canonical form is read back as it was packed. -/
theorem unpack_pack {m : Nat} {e : Int} (hm : 0 < m) (h : Canonical spec m e) :
    unpack spec (pack spec (.finite s m e hm)) = .finite s m e hm := by
  obtain ⟨htarget, hfits⟩ := h
  rw [targetExponent, totalExponent, minExponent_eq, mantissaBits] at htarget
  have hlow : 1 ≤ e + spec.exponentBias + spec.mantissaBitsWithoutImplicit := by omega
  have hlog : m.log2 ≤ spec.mantissaBitsWithoutImplicit := by omega
  have hlt : m < 2 ^ (spec.mantissaBitsWithoutImplicit + 1) :=
    (Nat.log2_lt hm.ne').1 (by omega)
  obtain ⟨n, hn⟩ : ∃ n : Nat, e + spec.exponentBias + spec.mantissaBitsWithoutImplicit = n :=
    ⟨_, (Int.toNat_of_nonneg (by omega)).symm⟩
  have hn' : n + 1 < 2 ^ spec.exponentBits := by
    rw [hn] at hfits
    exact_mod_cast hfits
  rw [pack]
  simp only [hn, Int.toNat_natCast]
  rw [if_neg (by omega)]
  by_cases hnormal : m.log2 = spec.mantissaBitsWithoutImplicit
  · have hexponent : (BitVec.ofNat spec.exponentBits n).toNat = n := by
      rw [BitVec.toNat_ofNat, Nat.mod_eq_of_lt (by omega)]
    have hbottom : BitVec.ofNat spec.exponentBits n ≠ 0#_ := by
      intro h
      have hzero := congrArg BitVec.toNat h
      rw [hexponent, BitVec.toNat_zero] at hzero
      omega
    have htop : BitVec.ofNat spec.exponentBits n ≠ -1#_ := by
      intro h
      have hones := congrArg BitVec.toNat h
      rw [hexponent, BitVec.neg_one_eq_allOnes, BitVec.toNat_allOnes] at hones
      omega
    rw [if_pos (by rw [mantissaBits]; omega), unpack_normal s hbottom htop]
    congr 1
    · have hle : 2 ^ spec.mantissaBitsWithoutImplicit ≤ m := hnormal ▸ Nat.log2_self_le hm.ne'
      rw [toNat_leading_one, BitVec.toNat_ofNat, Nat.mod_eq_sub_mod hle, Nat.mod_eq_of_lt]
      · omega
      · rw [Nat.pow_succ] at hlt
        omega
    · rw [hexponent]
      omega
  · have hmantissa : (BitVec.ofNat spec.mantissaBitsWithoutImplicit m).toNat = m := by
      rw [BitVec.toNat_ofNat, Nat.mod_eq_of_lt ((Nat.log2_lt hm.ne').1 (by omega))]
    rw [if_neg (by rw [mantissaBits]; omega), unpack_subnormal s (by rwa [hmantissa])]
    congr 1
    omega

/-- What is read from a pattern of bits is canonical. -/
theorem canonical_of_unpack {b : BitVec spec.numBits} {s : Sign} {m : Nat} {e : Int} {hm : 0 < m}
    (h : unpack spec b = .finite s m e hm) (hspec : 2 ≤ spec.exponentBits) :
    Canonical spec m e := by
  have hexponent : (unpackExponent b).toNat < 2 ^ spec.exponentBits := BitVec.isLt _
  have hmantissa : (unpackMantissa b).toNat < 2 ^ spec.mantissaBitsWithoutImplicit := BitVec.isLt _
  unfold unpack at h
  dsimp only at h
  split at h
  · split at h <;> cases h
  · next htop =>
    have htop' : (unpackExponent b).toNat + 1 ≠ 2 ^ spec.exponentBits := by
      intro h
      refine htop (BitVec.eq_of_toNat_eq ?_)
      rw [BitVec.neg_one_eq_allOnes, BitVec.toNat_allOnes]
      omega
    have hlt : ((unpackExponent b).toNat : Int) + 1 < 2 ^ spec.exponentBits := by
      exact_mod_cast (show (unpackExponent b).toNat + 1 < 2 ^ spec.exponentBits by omega)
    split at h
    · next hbottom =>
      split at h
      · cases h
      · next hne =>
        injection h with _ hm' he
        rw [hbottom, BitVec.toNat_zero] at he hlt
        have hlog : m.log2 < spec.mantissaBitsWithoutImplicit :=
          (Nat.log2_lt hm.ne').2 (hm' ▸ hmantissa)
        have hfour : 2 ^ 2 ≤ 2 ^ spec.exponentBits := Nat.pow_le_pow_right (by decide) hspec
        have hfour' : (4 : Int) ≤ 2 ^ spec.exponentBits := by exact_mod_cast hfour
        refine ⟨?_, ?_⟩
        · rw [targetExponent, totalExponent, minExponent_eq, mantissaBits]
          omega
        · omega
    · next hbottom =>
      injection h with _ hm' he
      rw [toNat_leading_one] at hm'
      have hlog : m.log2 = spec.mantissaBitsWithoutImplicit := by
        rw [Nat.log2_eq_iff hm.ne', Nat.pow_succ]
        omega
      have hbottom' : (unpackExponent b).toNat ≠ 0 := fun h ↦ hbottom (BitVec.eq_of_toNat_eq h)
      refine ⟨?_, ?_⟩
      · rw [targetExponent, totalExponent, minExponent_eq, mantissaBits]
        omega
      · omega

end Packing

/-! ### Rounding -/

section Rounding

variable {spec : Float.Model.Format} (s : Sign)

theorem log2_mul_two_pow {m : Nat} (hm : m ≠ 0) (k : Nat) : (m * 2 ^ k).log2 = m.log2 + k := by
  induction k with
  | zero => rw [Nat.pow_zero, Nat.mul_one, Nat.add_zero]
  | succ k ih =>
    have hne : m * 2 ^ k ≠ 0 := Nat.mul_ne_zero hm (Nat.two_pow_pos k).ne'
    rw [Nat.pow_succ, ← Nat.mul_assoc, Nat.mul_comm, Nat.log2_two_mul hne, ih, Nat.add_assoc]

theorem totalExponent_scale {m : Nat} (hm : m ≠ 0) (k : Nat) (e : Int) :
    totalExponent (m * 2 ^ k) (e - k) = totalExponent m e := by
  rw [totalExponent, totalExponent, log2_mul_two_pow hm]
  push_cast
  ring

/-- Shifting out zeros leaves no residue. -/
theorem shiftRight_scale (m k d : Nat) :
    ExtendedMantissa.ofMantissaAndAccuracy (m * 2 ^ k) .exact >>> (d + k) =
      ExtendedMantissa.ofMantissaAndAccuracy m .exact >>> d := by
  have hfirst (em : ExtendedMantissa) (n : Nat) : em >>> (n + 1) = em.shiftRightOne >>> n := by
    induction n with
    | zero => rfl
    | succ n ih => exact congrArg ExtendedMantissa.shiftRightOne ih
  induction k generalizing m with
  | zero => rw [Nat.pow_zero, Nat.mul_one, Nat.add_zero]
  | succ k ih =>
    have hone : (ExtendedMantissa.ofMantissaAndAccuracy (m * 2 ^ (k + 1)) .exact).shiftRightOne =
        .ofMantissaAndAccuracy (m * 2 ^ k) .exact := by
      rw [Nat.pow_succ, ← Nat.mul_assoc]
      simp [ExtendedMantissa.ofMantissaAndAccuracy, ExtendedMantissa.shiftRightOne]
    rw [← Nat.add_assoc, hfirst, hone, ih]

/-- Rounding depends on the number, not on how it is written as a mantissa and an exponent. -/
theorem roundWithAccuracy_scale {m : Nat} {e : Int} (hm : m ≠ 0)
    (he : e ≤ spec.targetExponent (totalExponent m e)) (k : Nat) :
    roundWithAccuracy spec s (m * 2 ^ k) (e - k) .exact = roundWithAccuracy spec s m e .exact := by
  have hshift : shiftToTargetExponent spec (m * 2 ^ k) (e - k) .exact =
      shiftToTargetExponent spec m e .exact := by
    simp only [shiftToTargetExponent, shiftToExponent, totalExponent_scale hm]
    generalize spec.targetExponent (totalExponent m e) = t at he ⊢
    have hk : (t - (e - k)).toNat = (t - e).toNat + k := by omega
    rw [hk, shiftRight_scale, Nat.cast_add, ← Int.sub_add_cancel e k]
    congr 1
    ring
  simp only [roundWithAccuracy, hshift]

/-- Rounding leaves a form with the exponent of the format as it is. -/
theorem roundWithAccuracy_target {m : Nat} {e : Int} (hm : 0 < m)
    (he : spec.targetExponent (totalExponent m e) = e) :
    roundWithAccuracy spec s m e .exact = .finite s m e hm := by
  have hshift : shiftToTargetExponent spec m e .exact = (⟨m, false, false⟩, e) := by
    simp only [shiftToTargetExponent, shiftToExponent, he, sub_self, Int.toNat_zero, Nat.cast_zero,
      add_zero]
    rfl
  have hround : (⟨m, false, false⟩ : ExtendedMantissa).roundedMantissa = m := rfl
  simp only [roundWithAccuracy, hshift, hround, dif_neg hm.ne']

theorem round_scale {m : Nat} (hm : m ≠ 0) (k : Nat) (e : Int) :
    round spec s (m * 2 ^ k) (e - k) = round spec s m e := by
  -- Any two scalings far enough below the target exponent agree, so both sides meet in a third.
  have hround (i j : Nat) (hi : e - i ≤ spec.targetExponent (totalExponent m e)) (hij : i ≤ j) :
      roundWithAccuracy spec s (m * 2 ^ j) (e - j) .exact =
        roundWithAccuracy spec s (m * 2 ^ i) (e - i) .exact := by
    obtain ⟨d, rfl⟩ := Nat.exists_eq_add_of_le hij
    have hne : m * 2 ^ i ≠ 0 := Nat.mul_ne_zero hm (Nat.two_pow_pos i).ne'
    rw [← roundWithAccuracy_scale s hne (by rwa [totalExponent_scale hm]) d]
    congr 1
    · ring
    · push_cast
      ring
  have hunfold (n : Nat) (f : Int) : round spec s n f = roundWithAccuracy spec s
      (n * 2 ^ (f - spec.targetExponent (totalExponent n f)).toNat)
      (f - (f - spec.targetExponent (totalExponent n f)).toNat) .exact := by
    rw [← Nat.shiftLeft_eq]
    rfl
  rw [hunfold, hunfold, totalExponent_scale hm]
  generalize spec.targetExponent (totalExponent m e) = t at hround ⊢
  rw [← hround (e - t).toNat (k + (e - k - t).toNat) (by omega) (by omega)]
  congr 1
  · ring
  · push_cast
    ring

end Rounding

/-! ### Numbers -/

/-- The number of an unpacked form. -/
def ofUnpacked (u : UnpackedFloat) : Float :=
  .ofModel (.pack u)

section Numbers

variable {x y : Float}

theorem unpack_ofUnpacked (u : UnpackedFloat) :
    (ofUnpacked u).toModel.unpack = unpack binary64 (pack binary64 u) :=
  rfl

theorem ofUnpacked_unpack (x : Float) : ofUnpacked x.toModel.unpack = x :=
  x.ofBits_toBits

theorem eq_of_unpack_eq (h : x.toModel.unpack = y.toModel.unpack) : x = y := by
  rw [← ofUnpacked_unpack x, h, ofUnpacked_unpack]

@[simp]
theorem isNaN_ofUnpacked (u : UnpackedFloat) : (ofUnpacked u).isNaN = u.isNaN := by
  change (unpack binary64 (pack binary64 u)).isNaN = u.isNaN
  cases u with
  | notANumber => exact congrArg UnpackedFloat.isNaN unpack_packedNaN
  | infinity s => exact congrArg UnpackedFloat.isNaN (unpack_packedInfinity s)
  | zero s => exact congrArg UnpackedFloat.isNaN unpack_packedZero
  | finite s m e hm => exact (hasSign_unpack_pack_finite s hm).isNaN_eq

theorem HasSign.ofUnpacked {s : Sign} {u : UnpackedFloat} (h : HasSign s u) :
    HasSign s (Number.ofUnpacked u).toModel.unpack := by
  rw [unpack_ofUnpacked]
  cases h with
  | zero =>
    rw [pack, unpack_packedZero]
    exact .zero
  | finite => exact hasSign_unpack_pack_finite s _
  | infinity =>
    rw [pack, unpack_packedInfinity]
    exact .infinity

/-- A finite number is stored in its canonical form. -/
theorem canonical_of_eq_finite {s : Sign} {m : Nat} {e : Int} {hm : 0 < m}
    (h : x.toModel.unpack = .finite s m e hm) : Canonical binary64 m e :=
  canonical_of_unpack h (by decide)

theorem unpack_neg (x : Float) : (-x).toModel.unpack = x.toModel.unpack.neg := by
  change unpack binary64 (pack binary64 x.toModel.unpack.neg) = x.toModel.unpack.neg
  cases hx : x.toModel.unpack with
  | notANumber => exact unpack_packedNaN
  | infinity s => exact unpack_packedInfinity (-s)
  | zero s => exact unpack_packedZero
  | finite s m e hm => exact unpack_pack (-s) hm (canonical_of_eq_finite hx)

theorem unpack_abs (x : Float) : x.abs.toModel.unpack = x.toModel.unpack.abs := by
  change unpack binary64 (pack binary64 x.toModel.unpack.abs) = x.toModel.unpack.abs
  cases hx : x.toModel.unpack with
  | notANumber => exact unpack_packedNaN
  | infinity s => exact unpack_packedInfinity .positive
  | zero s => exact unpack_packedZero
  | finite s m e hm => exact unpack_pack .positive hm (canonical_of_eq_finite hx)

theorem sub_eq_add_neg (x y : Float) : x - y = x + -y := by
  change ofUnpacked (sub binary64 x.toModel.unpack y.toModel.unpack) =
    ofUnpacked (add binary64 x.toModel.unpack (-y).toModel.unpack)
  rw [unpack_neg]
  congr 1
  have hneg (s : Sign) (n : Int) : (-s).apply n = -s.apply n := by
    cases s
    · exact (neg_neg n).symm
    · rfl
  cases x.toModel.unpack <;> cases y.toModel.unpack <;> try rfl
  simp only [sub, add, UnpackedFloat.neg, hneg]
  rfl

theorem add_comm (x y : Float) : x + y = y + x := by
  refine congrArg ofUnpacked ?_
  cases x.toModel.unpack with
  | notANumber => cases y.toModel.unpack <;> rfl
  | infinity s =>
    cases y.toModel.unpack with
    | infinity t => cases s <;> cases t <;> rfl
    | _ => rfl
  | zero s =>
    cases y.toModel.unpack with
    | zero t => cases s <;> cases t <;> rfl
    | _ => rfl
  | finite s m e hm =>
    cases y.toModel.unpack with
    | finite t n f hn => simp only [add, min_comm, Int.add_comm]
    | _ => rfl

/-- The product of a unit and a finite form. -/
theorem mul_unit_finite (s t : Sign) {m : Nat} {e : Int} (hm : 0 < m) (h : Canonical binary64 m e) :
    mul binary64 (.finite s (2 ^ 52) (-52) (Nat.two_pow_pos 52)) (.finite t m e hm) =
      .finite (s * t) m e hm := by
  have hround := roundWithAccuracy_scale (s * t) hm.ne' h.target.ge 52
  rw [roundWithAccuracy_target (s * t) hm h.target] at hround
  rw [← hround]
  change roundWithAccuracy binary64 (s * t) (2 ^ 52 * m) (-52 + e) .exact = _
  rw [Nat.mul_comm, Int.add_comm]
  rfl

theorem one_mul (x : Float) : 1 * x = x := by
  have hpositive (s : Sign) : .positive * s = s := by
    cases s <;> rfl
  refine Eq.trans (congrArg ofUnpacked ?_) (ofUnpacked_unpack x)
  change mul binary64 (.finite .positive (2 ^ 52) (-52) (Nat.two_pow_pos 52)) x.toModel.unpack =
    x.toModel.unpack
  cases hx : x.toModel.unpack with
  | notANumber => rfl
  | infinity s => exact congrArg UnpackedFloat.infinity (hpositive s)
  | zero s => exact congrArg UnpackedFloat.zero (hpositive s)
  | finite s m e hm => rw [mul_unit_finite _ s hm (canonical_of_eq_finite hx), hpositive]

theorem neg_one_mul (x : Float) : -1 * x = -x := by
  have hnegative (s : Sign) : .negative * s = -s := by
    cases s <;> rfl
  refine congrArg ofUnpacked ?_
  change mul binary64 (.finite .negative (2 ^ 52) (-52) (Nat.two_pow_pos 52)) x.toModel.unpack =
    x.toModel.unpack.neg
  cases hx : x.toModel.unpack with
  | notANumber => rfl
  | infinity s => exact congrArg UnpackedFloat.infinity (hnegative s)
  | zero s => exact congrArg UnpackedFloat.zero (hnegative s)
  | finite s m e hm =>
    rw [mul_unit_finite _ s hm (canonical_of_eq_finite hx), hnegative]
    rfl

/-! ### What is no number -/

@[simp]
theorem isNaN_neg (x : Float) : (-x).isNaN = x.isNaN := by
  change (-x).toModel.unpack.isNaN = x.toModel.unpack.isNaN
  rw [unpack_neg]
  cases x.toModel.unpack <;> rfl

theorem hasSign_round (spec : Float.Model.Format) (s : Sign) (m : Nat) (e : Int) (a : Accuracy) :
    HasSign s (roundWithAccuracy spec s m e a) := by
  simp only [roundWithAccuracy]
  split
  · exact .zero
  · exact .finite

theorem isNaN_round (spec : Float.Model.Format) (s : Sign) (m : Nat) (e : Int) (a : Accuracy) :
    (roundWithAccuracy spec s m e a).isNaN = false :=
  (hasSign_round spec s m e a).isNaN_eq

theorem isNaN_normalize (spec : Float.Model.Format) (n : Int) (e : Int) (s : Sign) :
    (UnpackedFloat.normalize spec n e s).isNaN = false := by
  unfold UnpackedFloat.normalize
  split
  · exact isNaN_round ..
  · rfl
  · exact isNaN_round ..

section Forms

variable {spec : Float.Model.Format} {u : UnpackedFloat}

theorem isNaN_add (hu : u.isFinite) (v : UnpackedFloat) : (add spec u v).isNaN = v.isNaN := by
  cases u with
  | notANumber => cases hu
  | infinity s => cases hu
  | zero s =>
    cases v with
    | zero t => cases s <;> cases t <;> rfl
    | _ => rfl
  | finite s m e hm =>
    cases v with
    | finite t n f hn => exact isNaN_normalize ..
    | _ => rfl

theorem isNaN_sub (hu : u.isFinite) (v : UnpackedFloat) : (sub spec v u).isNaN = v.isNaN := by
  cases u with
  | notANumber => cases hu
  | infinity s => cases hu
  | zero s =>
    cases v with
    | zero t => cases s <;> cases t <;> rfl
    | _ => rfl
  | finite s m e hm =>
    cases v with
    | finite t n f hn => exact isNaN_normalize ..
    | _ => rfl

theorem isNaN_mul (hu : u.isFinite) (hne : u.beq (.zero .positive) = false) (v : UnpackedFloat) :
    (mul spec u v).isNaN = v.isNaN := by
  cases u with
  | notANumber => cases hu
  | infinity s => cases hu
  | zero s => cases hne
  | finite s m e hm =>
    cases v with
    | finite t n f hn => exact isNaN_round ..
    | _ => rfl

end Forms

/-- A sum with a finite number is a number exactly if the other summand is. -/
theorem isNaN_add_of_isFinite (hx : x.isFinite) : (x + y).isNaN = y.isNaN :=
  (isNaN_ofUnpacked _).trans (isNaN_add hx _)

theorem isNaN_sub_of_isFinite (hy : y.isFinite) : (x - y).isNaN = x.isNaN :=
  (isNaN_ofUnpacked _).trans (isNaN_sub hy _)

theorem isNaN_mul_of_isFinite (hx : x.isFinite) (hne : (x == 0) = false) :
    (x * y).isNaN = y.isNaN :=
  (isNaN_ofUnpacked _).trans (isNaN_mul hx hne _)

theorem isNaN_ofNat (n : Nat) : (ofNat n).isNaN = false :=
  (isNaN_ofUnpacked _).trans (isNaN_normalize ..)

end Numbers

end Waypoints.Number

namespace Waypoints

/-- The number nearest to a decimal one is a number without a minus sign. -/
theorem Decimal.hasSign_toFloat (d : Decimal) :
    Number.HasSign .positive d.toFloat.toModel.unpack := by
  refine Number.HasSign.ofUnpacked ?_
  unfold Float.Model.UnpackedFloat.ofScientific
  split
  · exact .zero
  split
  · exact .infinity
  split
  · exact .zero
  split
  · exact Number.hasSign_round ..
  · exact Number.hasSign_round ..

end Waypoints
