import Waypoints.Match.Player
import Waypoints.Proofs.Number.Rational
/-!
# The frames of the two sides

Both frames have whole origins, and take a point to a point with the same wildcards
(`Frame.numeric_toWorld`, `Frame.numeric_toPlayer`). On whole coordinates the two ways through a
frame are inverse to each other (`Frame.sameAs_toPlayer_toWorld`) except that a zero comes back with
the sign of its axis (`Frame.unpack_toPlayer_toWorld`), and one frame is the mirror image of the
other (`sameAs_mirror`).
-/

set_option autoImplicit false
set_option relaxedAutoImplicit false

namespace Waypoints

open Number (Same ofInt)

/-! ### One axis -/

namespace Facing

/-- The unit step of an axis as an integer. -/
def step : Facing → Int
  | along => 1
  | against => -1

theorem toFloat_mul (f : Facing) (x : Float) :
    f.toFloat * x = match f with | along => x | against => -x := by
  cases f with
  | along => exact Number.one_mul x
  | against => exact Number.neg_one_mul x

theorem isNaN_mul (f : Facing) (x : Float) : (f.toFloat * x).isNaN = x.isNaN := by
  rw [toFloat_mul]
  cases f with
  | along => rfl
  | against => exact Number.isNaN_neg x

theorem same_mul_ofInt (f : Facing) {n : Int} (hn : n.natAbs ≤ 2 ^ 53) :
    Same (f.toFloat * ofInt n) (ofInt (f.step * n)) := by
  rw [toFloat_mul]
  cases f with
  | along => exact .of_eq (congrArg ofInt (Int.one_mul n).symm)
  | against =>
    rw [step, Int.neg_one_mul]
    exact Number.same_neg_ofInt_of_le hn

theorem natAbs_step_mul (f : Facing) (n : Int) : (f.step * n).natAbs = n.natAbs := by
  cases f
  · exact congrArg Int.natAbs (Int.one_mul n)
  · rw [step, Int.neg_one_mul, Int.natAbs_neg]

theorem step_mul_step (f : Facing) (n : Int) : f.step * (f.step * n) = n := by
  cases f
  · rw [step, Int.one_mul, Int.one_mul]
  · rw [step, Int.neg_one_mul, Int.neg_one_mul, neg_neg]

theorem exists_unpack_mul_zero (f : Facing) {s : Float.Model.UnpackedFloat.Sign} {x : Float}
    (hx : x.toModel.unpack = .zero s) : ∃ t, (f.toFloat * x).toModel.unpack = .zero t := by
  rw [toFloat_mul]
  cases f with
  | along => exact ⟨s, hx⟩
  | against => exact ⟨-s, by rw [Number.unpack_neg, hx]; rfl⟩

/-- An axis does not carry the sign of a zero into the world. -/
theorem ofInt_add_mul_eq_of_same (f : Facing) {c : Int} {x y : Float} (hc : c.natAbs < 2 ^ 53)
    (h : Same x y) : ofInt c + f.toFloat * x = ofInt c + f.toFloat * y := by
  rcases h.eq_or with rfl | ⟨s, t, hx, hy⟩
  · rfl
  · obtain ⟨s', hx'⟩ := f.exists_unpack_mul_zero hx
    obtain ⟨t', hy'⟩ := f.exists_unpack_mul_zero hy
    rw [Number.ofInt_add_zero hx' hc, Number.ofInt_add_zero hy' hc]

/-- From an axis into the world and back, an integer is the same.

Assumes: the integer and the origin are at most `2 ^ 52` in magnitude. -/
theorem same_roundtrip (f : Facing) {c n : Int} {o x : Float} (hc : c.natAbs ≤ 2 ^ 52)
    (hn : n.natAbs ≤ 2 ^ 52) (ho : Same o (ofInt c)) (hx : Same x (ofInt n)) :
    Same (f.toFloat * (o + f.toFloat * x - o)) (ofInt n) := by
  have habs := f.natAbs_step_mul n
  have hstep : Same (f.toFloat * x) (ofInt (f.step * n)) :=
    ((Same.refl _).mul hx).trans (f.same_mul_ofInt (by omega))
  have hworld : Same (o + f.toFloat * x) (ofInt (c + f.step * n)) :=
    (ho.add hstep).trans (Number.same_ofInt_add (by omega) (by omega))
  have hback : Same (o + f.toFloat * x - o) (ofInt (f.step * n)) := by
    have h := (hworld.sub ho).trans
      (Number.same_ofInt_sub_of_le (by omega) hc (by rw [add_sub_cancel_left]; omega))
    rwa [add_sub_cancel_left] at h
  have h := ((Same.refl f.toFloat).mul hback).trans (f.same_mul_ofInt (by omega))
  rwa [step_mul_step] at h

/-- From the world into an axis and back, an integer is the same.

Assumes: the integer and the origin are at most `2 ^ 52` in magnitude. -/
theorem same_roundtrip_world (f : Facing) {c n : Int} {o x : Float} (hc : c.natAbs ≤ 2 ^ 52)
    (hn : n.natAbs ≤ 2 ^ 52) (ho : Same o (ofInt c)) (hx : Same x (ofInt n)) :
    Same (o + f.toFloat * (f.toFloat * (x - o))) (ofInt n) := by
  have habs := f.natAbs_step_mul (n - c)
  have hplayer : Same (f.toFloat * (x - o)) (ofInt (f.step * (n - c))) := by
    have hsub := (hx.sub ho).trans (.of_eq (Number.ofInt_sub (by omega) (by omega)))
    exact ((Same.refl _).mul hsub).trans (f.same_mul_ofInt (by omega))
  have hstep : Same (f.toFloat * (f.toFloat * (x - o))) (ofInt (n - c)) := by
    have h := ((Same.refl f.toFloat).mul hplayer).trans (f.same_mul_ofInt (by omega))
    rwa [step_mul_step] at h
  have h := (ho.add hstep).trans
    (Number.same_ofInt_add_of_le hc (by omega) (by rw [add_sub_cancel]; exact hn))
  rwa [add_sub_cancel] at h

/-- The sign of the step of an axis. -/
def sign : Facing → Float.Model.UnpackedFloat.Sign
  | along => .positive
  | against => .negative

/-- From an axis into the world and back, a zero has the sign of the axis. -/
theorem unpack_roundtrip_zero (f : Facing) {c : Int} {x : Float} (hc : c.natAbs < 2 ^ 53)
    (hx : x == 0) :
    (f.toFloat * (ofInt c + f.toFloat * x - ofInt c)).toModel.unpack = .zero f.sign := by
  obtain ⟨s, hs⟩ : ∃ s, x.toModel.unpack = .zero s := by
    rcases (Same.of_beq hx).eq_or with rfl | ⟨s, -, hs, -⟩
    · exact ⟨.positive, rfl⟩
    · exact ⟨s, hs⟩
  obtain ⟨t, hs⟩ := f.exists_unpack_mul_zero hs
  rw [Number.ofInt_add_zero hs hc, Number.ofInt_sub hc hc, sub_self, toFloat_mul]
  cases f <;> rfl

end Facing

/-! ### Points -/

/-- No component is a wildcard. -/
def Point.Numeric (p : Point) : Prop :=
  p.x.isNaN = false ∧ p.y.isNaN = false

/-- Both components are integers of a magnitude of at most `2 ^ 31`. -/
def Point.Whole (p : Point) : Prop :=
  (∃ n : Int, n.natAbs ≤ 2 ^ 31 ∧ p.x == ofInt n) ∧ ∃ n : Int, n.natAbs ≤ 2 ^ 31 ∧ p.y == ofInt n

theorem Number.toFloat_sub_one (n : UInt32) : n.toFloat - 1 = ofInt (n.toNat - 1) := by
  have hn := n.toNat_lt
  have hunit : (1 : Float) = ofInt 1 := rfl
  rw [Number.toFloat_eq_ofInt, hunit]
  exact Number.ofInt_sub (by omega) (by omega)

theorem Board.corner_eq (b : Board) :
    b.corner = ⟨ofInt (b.width.toNat - 1), ofInt (b.height.toNat - 1)⟩ :=
  congrArg₂ Point.mk (Number.toFloat_sub_one _) (Number.toFloat_sub_one _)

/-- Both sides have their origins on whole coordinates. -/
theorem Side.exists_origin_eq (side : Side) (board : Board) :
    ∃ a b : Int, a.natAbs ≤ 2 ^ 52 ∧ b.natAbs ≤ 2 ^ 52 ∧
      (side.frame board).origin = ⟨ofInt a, ofInt b⟩ := by
  have hwidth := board.width.toNat_lt
  have hheight := board.height.toNat_lt
  cases side with
  | one => exact ⟨0, 0, by omega, by omega, rfl⟩
  | two => exact ⟨_, _, by omega, by omega, board.corner_eq⟩

section Frames

variable (side : Side) (board : Board) (p : Point)

theorem Side.isFinite_origin :
    (side.frame board).origin.x.isFinite ∧ (side.frame board).origin.y.isFinite := by
  obtain ⟨a, b, ha, hb, horigin⟩ := side.exists_origin_eq board
  rw [horigin]
  exact ⟨Number.isFinite_ofInt (by omega), Number.isFinite_ofInt (by omega)⟩

theorem Frame.numeric_toWorld : ((side.frame board).toWorld p).Numeric ↔ p.Numeric := by
  obtain ⟨hx, hy⟩ := side.isFinite_origin board
  have hcomponent {c : Float} (hc : c.isFinite) (f : Facing) (x : Float) :
      (c + f.toFloat * x).isNaN = x.isNaN :=
    (Number.isNaN_add_of_isFinite hc).trans (f.isNaN_mul x)
  exact and_congr (Eq.congr_left (hcomponent hx _ p.x)) (Eq.congr_left (hcomponent hy _ p.y))

theorem Frame.numeric_toPlayer : ((side.frame board).toPlayer p).Numeric ↔ p.Numeric := by
  obtain ⟨hx, hy⟩ := side.isFinite_origin board
  have hcomponent {c : Float} (hc : c.isFinite) (f : Facing) (x : Float) :
      (f.toFloat * (x - c)).isNaN = x.isNaN :=
    (f.isNaN_mul _).trans (Number.isNaN_sub_of_isFinite hc)
  exact and_congr (Eq.congr_left (hcomponent hx _ p.x)) (Eq.congr_left (hcomponent hy _ p.y))

variable {p}

/-- Points that are the same up to the signs of zeros are at one place of the world. -/
theorem Frame.toWorld_eq_of_same {q : Point} (hx : Same p.x q.x) (hy : Same p.y q.y) :
    (side.frame board).toWorld p = (side.frame board).toWorld q := by
  obtain ⟨a, b, ha, hb, horigin⟩ := side.exists_origin_eq board
  unfold Frame.toWorld
  rw [horigin]
  exact congrArg₂ Point.mk (Facing.ofInt_add_mul_eq_of_same _ (by omega) hx)
    (Facing.ofInt_add_mul_eq_of_same _ (by omega) hy)

/-- Into the world and back, a point on whole coordinates is the same up to the signs of zeros. -/
theorem Frame.sameAs_toPlayer_toWorld (hp : p.Whole) :
    ((side.frame board).toPlayer ((side.frame board).toWorld p)).sameAs p := by
  obtain ⟨⟨m, hm, hx⟩, n, hn, hy⟩ := hp
  obtain ⟨a, b, ha, hb, horigin⟩ := side.exists_origin_eq board
  have hx : Same p.x (ofInt m) := .of_beq hx
  have hy : Same p.y (ofInt n) := .of_beq hy
  have hroundx := (side.frame board).heading.x.same_roundtrip ha (by omega) (.refl _) hx
  have hroundy := (side.frame board).heading.y.same_roundtrip hb (by omega) (.refl _) hy
  unfold Frame.toPlayer Frame.toWorld
  rw [horigin]
  exact Bool.and_eq_true_iff.2 ⟨hroundx.trans hx.symm, hroundy.trans hy.symm⟩

/-- Into the world and back, a zero has the sign of its axis. -/
theorem Frame.unpack_toPlayer_toWorld :
    (p.x == 0 → ((side.frame board).toPlayer ((side.frame board).toWorld p)).x.toModel.unpack =
      .zero (side.frame board).heading.x.sign) ∧
    (p.y == 0 → ((side.frame board).toPlayer ((side.frame board).toWorld p)).y.toModel.unpack =
      .zero (side.frame board).heading.y.sign) := by
  obtain ⟨a, b, ha, hb, horigin⟩ := side.exists_origin_eq board
  unfold Frame.toPlayer Frame.toWorld
  rw [horigin]
  exact ⟨(side.frame board).heading.x.unpack_roundtrip_zero (by omega),
    (side.frame board).heading.y.unpack_roundtrip_zero (by omega)⟩

/-- What the second side sees at a point is the mirror image of what the first side sees there. -/
theorem sameAs_mirror {q : Point} (h : p.sameAs q) :
    ((Side.two.frame board).toWorld q).sameAs
      (board.corner - (Side.one.frame board).toWorld p) := by
  obtain ⟨hx, hy⟩ := Bool.and_eq_true_iff.1 h
  have hcomponent {c x y : Float} (hxy : Same x y) :
      Same (c + Facing.against.toFloat * y) (c - (0 + Facing.along.toFloat * x)) := by
    rw [Facing.toFloat_mul, Facing.toFloat_mul, Number.sub_eq_add_neg]
    exact (Same.refl c).add (hxy.symm.trans (Number.same_zero_add x).symm).neg
  exact Bool.and_eq_true_iff.2 ⟨hcomponent hx, hcomponent hy⟩

end Frames

end Waypoints
