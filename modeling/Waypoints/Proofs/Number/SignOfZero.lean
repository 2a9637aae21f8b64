import Waypoints.Geometry.Point
import Waypoints.Number.Power
import Waypoints.Proofs.Number.Integers
/-!
# The sign of a zero

`Number.Same` is the equality of the components of points: equal numbers, with 0 equal to -0, or two
NaNs. Sums, products, quotients, roundings and comparisons of such numbers are such numbers again
or agree. A power is not: a zero under a negative odd exponent is an infinity of its sign
(`Number.isPole`, `power_zero_neg_one`), and this is the only case (`Same.power`).
-/

set_option autoImplicit false
set_option relaxedAutoImplicit false

namespace Waypoints.Number

open Float.Model (UnpackedFloat)
open Float.Model.Format Float.Model.UnpackedFloat

/-! ### Forms -/

/-- The same form, or two zeros. -/
def Alike (u v : UnpackedFloat) : Prop :=
  u = v ∨ ∃ s t, u = .zero s ∧ v = .zero t

namespace Alike

variable {spec : Float.Model.Format} {u u' v v' : UnpackedFloat}

theorem zeros (s t : Sign) : Alike (.zero s) (.zero t) :=
  .inr ⟨s, t, rfl, rfl⟩

theorem add (hu : Alike u u') (hv : Alike v v') :
    Alike (UnpackedFloat.add spec u v) (UnpackedFloat.add spec u' v') := by
  have hzeros (s t : Sign) : ∃ r, UnpackedFloat.add spec (.zero s) (.zero t) = .zero r := by
    cases s <;> cases t <;> exact ⟨_, rfl⟩
  have hleft (s t : Sign) (w : UnpackedFloat) :
      Alike (UnpackedFloat.add spec (.zero s) w) (UnpackedFloat.add spec (.zero t) w) := by
    cases w with
    | zero r =>
      obtain ⟨a, ha⟩ := hzeros s r
      obtain ⟨b, hb⟩ := hzeros t r
      exact .inr ⟨a, b, ha, hb⟩
    | _ => exact .inl rfl
  have hright (s t : Sign) (w : UnpackedFloat) :
      Alike (UnpackedFloat.add spec w (.zero s)) (UnpackedFloat.add spec w (.zero t)) := by
    cases w with
    | zero r =>
      obtain ⟨a, ha⟩ := hzeros r s
      obtain ⟨b, hb⟩ := hzeros r t
      exact .inr ⟨a, b, ha, hb⟩
    | _ => exact .inl rfl
  rcases hu with rfl | ⟨s, t, rfl, rfl⟩ <;> rcases hv with rfl | ⟨s', t', rfl, rfl⟩
  · exact .inl rfl
  · exact hright s' t' u
  · exact hleft s t v
  · obtain ⟨a, ha⟩ := hzeros s s'
    obtain ⟨b, hb⟩ := hzeros t t'
    exact .inr ⟨a, b, ha, hb⟩

theorem neg (hu : Alike u u') : Alike u.neg u'.neg := by
  rcases hu with rfl | ⟨s, t, rfl, rfl⟩
  · exact .inl rfl
  · exact zeros (-s) (-t)

theorem mul (hu : Alike u u') (hv : Alike v v') :
    Alike (UnpackedFloat.mul spec u v) (UnpackedFloat.mul spec u' v') := by
  rcases hu with rfl | ⟨s, t, rfl, rfl⟩ <;> rcases hv with rfl | ⟨s', t', rfl, rfl⟩
  · exact .inl rfl
  · cases u with
    | zero r => exact zeros _ _
    | finite r m e hm => exact zeros _ _
    | _ => exact .inl rfl
  · cases v with
    | zero r => exact zeros _ _
    | finite r m e hm => exact zeros _ _
    | _ => exact .inl rfl
  · exact zeros _ _

/-- The divisors are the same: no quotient by a zero is a number. -/
theorem div (hu : Alike u u') :
    Alike (UnpackedFloat.div spec u v) (UnpackedFloat.div spec u' v) := by
  rcases hu with rfl | ⟨s, t, rfl, rfl⟩
  · exact .inl rfl
  · cases v with
    | finite r m e hm => exact zeros _ _
    | infinity r => exact zeros _ _
    | _ => exact .inl rfl

theorem compare_eq (hu : Alike u u') (hv : Alike v v') : u.compare v = u'.compare v' := by
  have hzero (s t : Sign) : u.compare (.zero s) = u.compare (.zero t) := by
    rcases u with r | _ | r | ⟨r, m, e, hm⟩
    · cases r <;> rfl
    · rfl
    · rfl
    · cases r <;> rfl
  have hzero' (s t : Sign) : UnpackedFloat.compare (.zero s) v' =
      UnpackedFloat.compare (.zero t) v' := by
    rcases v' with r | _ | r | ⟨r, m, e, hm⟩
    · cases r <;> rfl
    · rfl
    · rfl
    · cases r <;> rfl
  rcases hv with rfl | ⟨s', t', rfl, rfl⟩ <;> rcases hu with rfl | ⟨s, t, rfl, rfl⟩
  · rfl
  · exact hzero' s t
  · exact hzero s' t'
  · rfl

theorem isNaN_eq (hu : Alike u u') : u.isNaN = u'.isNaN := by
  rcases hu with rfl | ⟨s, t, rfl, rfl⟩ <;> rfl

theorem isFinite_eq (hu : Alike u u') : u.isFinite = u'.isFinite := by
  rcases hu with rfl | ⟨s, t, rfl, rfl⟩ <;> rfl

end Alike

/-! ### Numbers -/

/-- The same number up to the sign of a zero, or two NaNs. -/
def Same (x y : Float) : Prop :=
  Point.sameComponent x y

variable {x x' y y' z : Float}

theorem same_iff : Same x y ↔ Alike x.toModel.unpack y.toModel.unpack := by
  have hbeq := beq_iff_ne_notANumber_and_eq x.toModel.unpack y.toModel.unpack
  unfold Same Point.sameComponent
  rw [Bool.or_eq_true, Bool.and_eq_true]
  change x.toModel.unpack.beq y.toModel.unpack ∨
    x.toModel.unpack.isNaN ∧ y.toModel.unpack.isNaN ↔ _
  rw [hbeq, isNaN_iff, isNaN_iff]
  constructor
  · rintro (⟨-, -, h | ⟨hx, hy⟩ | ⟨hx, hy⟩⟩ | ⟨hx, hy⟩)
    · exact .inl h
    · exact .inr ⟨_, _, hx, hy⟩
    · exact .inr ⟨_, _, hx, hy⟩
    · exact .inl (hx.trans hy.symm)
  · rintro (h | ⟨s, t, hx, hy⟩)
    · by_cases hnan : x.toModel.unpack = .notANumber
      · exact .inr ⟨hnan, h.symm.trans hnan⟩
      · exact .inl ⟨hnan, h ▸ hnan, .inl h⟩
    · rw [hx, hy]
      cases s <;> cases t <;> simp

theorem lt_iff_lt : x < y ↔ x.toModel.unpack.lt y.toModel.unpack := by
  change decide (x.toModel < y.toModel) = true ↔ _
  rw [decide_eq_true_iff]
  rfl

theorem le_iff_le : x ≤ y ↔ x.toModel.unpack.le y.toModel.unpack := by
  change decide (x.toModel ≤ y.toModel) = true ↔ _
  rw [decide_eq_true_iff]
  rfl

theorem zero_le_of_hasSign (h : HasSign .positive x.toModel.unpack) : 0 ≤ x := by
  rw [le_iff_le]
  generalize x.toModel.unpack = u at h
  cases h <;> rfl

namespace Same

theorem refl (x : Float) : Same x x :=
  same_iff.2 (.inl rfl)

theorem symm (h : Same x y) : Same y x := by
  rcases same_iff.1 h with h | ⟨s, t, hx, hy⟩
  · exact same_iff.2 (.inl h.symm)
  · exact same_iff.2 (.inr ⟨t, s, hy, hx⟩)

theorem trans (h : Same x y) (h' : Same y z) : Same x z := by
  rw [same_iff] at h h' ⊢
  rcases h with h | ⟨s, t, hx, hy⟩
  · rwa [h]
  · rcases h' with h' | ⟨s', t', -, hz⟩
    · exact .inr ⟨s, t, hx, h'.symm.trans hy⟩
    · exact .inr ⟨s, t', hx, hz⟩

/-- Only zeros are the same without being equal. -/
theorem eq_or (h : Same x y) :
    x = y ∨ ∃ s t, x.toModel.unpack = .zero s ∧ y.toModel.unpack = .zero t :=
  (same_iff.1 h).imp_left eq_of_unpack_eq

theorem eq_of_ne_zero (h : Same x y) (hx : (x == 0) = false) : x = y := by
  rcases h.eq_or with h | ⟨s, t, hzero, -⟩
  · exact h
  · have hbeq : x.toModel.unpack.beq (.zero .positive) = false := hx
    rw [hzero] at hbeq
    cases hbeq

theorem of_eq (h : x = y) : Same x y :=
  h ▸ refl x

theorem of_beq (h : x == y) : Same x y :=
  Bool.or_eq_true_iff.2 (.inl h)

/-- A zero of either sign is the same as 0. -/
theorem of_unpack_eq_zero {s : Sign} (hx : x.toModel.unpack = .zero s) : Same x 0 :=
  same_iff.2 (.inr ⟨s, .positive, hx, rfl⟩)

/-- Like forms are packed as the same number. -/
theorem ofUnpacked {u v : UnpackedFloat} (h : Alike u v) :
    Same (Number.ofUnpacked u) (Number.ofUnpacked v) := by
  rcases h with rfl | ⟨s, t, rfl, rfl⟩
  · exact refl _
  · exact same_iff.2 (.inr ⟨s, t, unpack_packedZero, unpack_packedZero⟩)

theorem add (hx : Same x x') (hy : Same y y') : Same (x + y) (x' + y') :=
  ofUnpacked ((same_iff.1 hx).add (same_iff.1 hy))

theorem neg (hx : Same x x') : Same (-x) (-x') :=
  ofUnpacked (same_iff.1 hx).neg

theorem sub (hx : Same x x') (hy : Same y y') : Same (x - y) (x' - y') := by
  rw [sub_eq_add_neg, sub_eq_add_neg]
  exact hx.add hy.neg

theorem mul (hx : Same x x') (hy : Same y y') : Same (x * y) (x' * y') :=
  ofUnpacked ((same_iff.1 hx).mul (same_iff.1 hy))

theorem div (hx : Same x x') : Same (x / y) (x' / y) :=
  ofUnpacked (same_iff.1 hx).div

theorem floor (hx : Same x x') : Same (Number.floor x) (Number.floor x') := by
  rcases hx.eq_or with rfl | ⟨s, t, hzero, hzero'⟩
  · exact refl _
  · have hfloor (z : Float) (r : Sign) (hz : z.toModel.unpack = .zero r) : Number.floor z = z := by
      rw [Number.floor, hz]
    rwa [hfloor x s hzero, hfloor x' t hzero']

theorem ceil (hx : Same x x') : Same (Number.ceil x) (Number.ceil x') :=
  hx.neg.floor.neg

theorem isNaN_eq (hx : Same x x') : x.isNaN = x'.isNaN :=
  (same_iff.1 hx).isNaN_eq

theorem isFinite_eq (hx : Same x x') : x.isFinite = x'.isFinite :=
  (same_iff.1 hx).isFinite_eq

theorem beq_eq (hx : Same x x') (hy : Same y y') : (x == y) = (x' == y') := by
  change x.toModel.unpack.beq y.toModel.unpack = x'.toModel.unpack.beq y'.toModel.unpack
  rw [UnpackedFloat.beq, UnpackedFloat.beq, (same_iff.1 hx).compare_eq (same_iff.1 hy)]

theorem lt_iff (hx : Same x x') (hy : Same y y') : x < y ↔ x' < y' := by
  rw [lt_iff_lt, lt_iff_lt, UnpackedFloat.lt, UnpackedFloat.lt,
    (same_iff.1 hx).compare_eq (same_iff.1 hy)]

theorem le_iff (hx : Same x x') (hy : Same y y') : x ≤ y ↔ x' ≤ y' := by
  rw [le_iff_le, le_iff_le, UnpackedFloat.le, UnpackedFloat.le,
    (same_iff.1 hx).compare_eq (same_iff.1 hy)]

theorem isWhole_eq (hx : Same x x') : isWhole x = isWhole x' := by
  rw [isWhole, isWhole, hx.isFinite_eq, hx.floor.beq_eq hx]

/-- A number cut off below zero has no zero but the positive one. -/
theorem clamp_eq (h : Same x y) : (if x > 0 then x else 0) = if y > 0 then y else 0 := by
  rcases h.eq_or with rfl | ⟨s, t, hx, hy⟩
  · rfl
  · have hzero (z : Float) (r : Sign) (hz : z.toModel.unpack = .zero r) : ¬z > 0 := by
      rw [gt_iff_lt, (refl 0).lt_iff (of_unpack_eq_zero hz)]
      decide
    rw [if_neg (hzero x s hx), if_neg (hzero y t hy)]

end Same

/-! ### Integers -/

section Integers

variable {a b : Int}

theorem same_zero_add (x : Float) : Same (0 + x) x := by
  have hadd : 0 + x = ofUnpacked
      (UnpackedFloat.add binary64 (.zero .positive) x.toModel.unpack) := rfl
  rw [hadd]
  have hx := ofUnpacked_unpack x
  cases hform : x.toModel.unpack with
  | zero s =>
    rw [hform] at hx
    rw [← hx]
    cases s <;> exact Same.ofUnpacked (Alike.zeros _ _)
  | _ =>
    rw [hform] at hx
    exact Same.of_eq hx

theorem same_neg_ofInt (ha : a.natAbs < 2 ^ 53) : Same (-ofInt a) (ofInt (-a)) := by
  by_cases hzero : a = 0
  · subst hzero
    exact same_iff.2 (.inr ⟨_, _, rfl, rfl⟩)
  · exact .of_eq (neg_ofInt hzero ha)

theorem same_ofInt_add (ha : a.natAbs < 2 ^ 53) (hb : b.natAbs < 2 ^ 53) :
    Same (ofInt a + ofInt b) (ofInt (a + b)) := by
  have hneg : Same (ofInt b) (-ofInt (-b)) := by
    have h := (same_neg_ofInt ((Int.natAbs_neg b).symm ▸ hb)).symm
    rwa [neg_neg] at h
  have hsum := (Same.refl (ofInt a)).add hneg
  rw [← sub_eq_add_neg, ofInt_sub ha ((Int.natAbs_neg b).symm ▸ hb), sub_neg_eq_add] at hsum
  exact hsum

/-- Adding a zero to an integer gives the integer, with the positive zero for zero. -/
theorem ofInt_add_zero {s : Sign} (hx : x.toModel.unpack = .zero s) (ha : a.natAbs < 2 ^ 53) :
    ofInt a + x = ofInt a := by
  have hadd : ofInt a + x =
      ofUnpacked (UnpackedFloat.add binary64 (ofInt a).toModel.unpack x.toModel.unpack) := rfl
  rw [hadd, hx]
  by_cases hzero : a = 0
  · subst hzero
    rw [unpack_ofInt_zero]
    cases s <;> rfl
  · obtain ⟨hm, hform⟩ := unpack_ofInt hzero ha
    have hpack := ofUnpacked_unpack (ofInt a)
    rw [hform] at hpack ⊢
    exact hpack

end Integers

/-! ### Powers -/

/-- Whether a power is an infinity that has its sign from the sign of a zero. -/
def isPole (base exponent : Float) : Bool :=
  base == 0 && exponent < 0 && isOdd exponent

/-- Away from the poles, powers of the same numbers are the same. -/
theorem Same.power (hx : Same x x') (hy : Same y y') (hpole : isPole x y = false) :
    Same (power x y) (power x' y') := by
  unfold Number.power
  rw [← hy.beq_eq (refl 0), ← hx.beq_eq (refl 0)]
  cases hexponent : y == 0 with
  | true => exact refl 1
  | false =>
    obtain rfl := hy.eq_of_ne_zero hexponent
    cases hbase : x == 0 with
    | false =>
      obtain rfl := hx.eq_of_ne_zero hbase
      exact refl _
    | true =>
      change Same (powerOfZero x y) (powerOfZero x' y)
      simp only [isPole, hbase, Bool.true_and, Bool.and_eq_false_iff, decide_eq_false_iff_not]
        at hpole
      unfold powerOfZero
      cases hodd : isOdd y with
      | false => exact refl _
      | true =>
        have hnonneg : ¬y < 0 := hpole.resolve_right (by rw [hodd]; decide)
        simp only [if_true, if_neg hnonneg]
        split
        · exact refl y
        · exact hx

/-! ### Infinities -/

section Infinities

variable {s : Sign}

/-- The infinity of a sign. -/
def infinity (s : Sign) : Float :=
  ofUnpacked (.infinity s)

theorem isNaN_infinity (s : Sign) : (infinity s).isNaN = false :=
  isNaN_ofUnpacked _

theorem one_div_zero (hx : x.toModel.unpack = .zero s) :
    1 / x = infinity s := by
  have hdiv : 1 / x = ofUnpacked
      (UnpackedFloat.div binary64 (1 : Float).toModel.unpack x.toModel.unpack) := rfl
  rw [hdiv, hx]
  cases s <;> rfl

/-- The power of a zero with the exponent -1. -/
theorem power_zero_neg_one (hx : x.toModel.unpack = .zero s) :
    power x (-1) = infinity s := by
  have hbase : (x == 0) = true := (Same.of_unpack_eq_zero hx).beq_eq (.refl 0)
  have hexponent : ((-1 : Float) == 0) = false := by decide
  have hnan : (-1 : Float).isNaN = false := by decide
  have hodd : isOdd (-1) = true := by decide
  have hneg : (-1 : Float) < 0 := by decide
  simp only [power, powerOfZero, hbase, hexponent, hnan, hodd, hneg, if_true, one_div_zero hx,
    Bool.false_eq_true, if_false]

theorem unpack_infinity (s : Sign) : (infinity s).toModel.unpack = .infinity s :=
  unpack_packedInfinity s

/-- A sum with an infinity. -/
theorem add_infinity (hx : x.isFinite) (s : Sign) : x + infinity s = infinity s := by
  have hform : x.toModel.unpack.isFinite := hx
  have hadd : x + infinity s = ofUnpacked
      (UnpackedFloat.add binary64 x.toModel.unpack (infinity s).toModel.unpack) := rfl
  rw [hadd, unpack_infinity]
  revert hform
  cases x.toModel.unpack with
  | notANumber => exact fun h ↦ nomatch h
  | infinity t => exact fun h ↦ nomatch h
  | zero t => exact fun _ ↦ rfl
  | finite t m e hm => exact fun _ ↦ rfl

theorem neg_infinity (s : Sign) : -infinity s = infinity (-s) := by
  refine eq_of_unpack_eq ?_
  rw [unpack_neg, unpack_infinity, unpack_infinity]
  rfl

theorem not_same_infinity : ¬Same (infinity .positive) (infinity .negative) := by
  rw [same_iff, unpack_infinity, unpack_infinity]
  rintro (h | ⟨s, t, h, -⟩)
  · cases h
  · cases h

end Infinities

end Waypoints.Number
