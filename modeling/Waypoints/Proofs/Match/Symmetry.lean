import Waypoints.Proofs.Evaluation.Wildcards
import Waypoints.Proofs.Match.Frames
/-!
# Frames are symmetries of the board

A frame is exact where its sums are: if its origin and a point have integers of at most `2 ^ 52` in
magnitude as components, no sum on the two ways exceeds `2 ^ 53`. So both ways through the frame,
one after the other, lead back to the point (`Frame.inverseAt`), and a wildcard passes them in its
own component. The frame of a side moreover maps the board onto itself: a coordinate `n` of the
second side is `extent - 1 - n` in the world, which lies on the board if and only if `n` does
(`Board.contains_toWorld`). `frames_symmetric` puts the two together.
-/

set_option autoImplicit false
set_option relaxedAutoImplicit false

namespace Waypoints

open Number (Same ofInt)

/-! ### Exact coordinates -/

/-- An integer of a magnitude of at most `2 ^ 52`. -/
def Number.IsExact (x : Float) : Prop :=
  ∃ n : Int, n.natAbs ≤ 2 ^ 52 ∧ x == ofInt n

namespace Point

/-- Both components are integers of a magnitude of at most `2 ^ 52`. -/
def IsExact (p : Point) : Prop :=
  Number.IsExact p.x ∧ Number.IsExact p.y

/-- Every component is an integer of a magnitude of at most `2 ^ 52`, or a wildcard. -/
def IsExactOrWild (p : Point) : Prop :=
  (p.x.isNaN ∨ Number.IsExact p.x) ∧ (p.y.isNaN ∨ Number.IsExact p.y)

/-- The wildcards of two points are in the same components. -/
def SameWildcards (p q : Point) : Prop :=
  p.x.isNaN = q.x.isNaN ∧ p.y.isNaN = q.y.isNaN

end Point

theorem Number.IsExact.isFinite {x : Float} (h : Number.IsExact x) : x.isFinite := by
  obtain ⟨n, hn, hx⟩ := h
  rw [(Same.of_beq hx).isFinite_eq]
  exact Number.isFinite_ofInt (by omega)

/-! ### One axis -/

namespace Facing

variable {o x : Float}

theorem isNaN_toWorld (f : Facing) (ho : o.isFinite) :
    (o + f.toFloat * x).isNaN = x.isNaN :=
  (Number.isNaN_add_of_isFinite ho).trans (f.isNaN_mul x)

theorem isNaN_toPlayer (f : Facing) (ho : o.isFinite) :
    (f.toFloat * (x - o)).isNaN = x.isNaN :=
  (f.isNaN_mul _).trans (Number.isNaN_sub_of_isFinite ho)

/-- From an axis into the world and back. -/
theorem same_toPlayer_toWorld (f : Facing) (ho : Number.IsExact o)
    (hx : x.isNaN ∨ Number.IsExact x) : Same (f.toFloat * (o + f.toFloat * x - o)) x := by
  rcases hx with hnan | ⟨n, hn, hx⟩
  · have hback : (f.toFloat * (o + f.toFloat * x - o)).isNaN := by
      rwa [f.isNaN_toPlayer ho.isFinite, f.isNaN_toWorld ho.isFinite]
    exact Bool.or_eq_true_iff.2 (.inr (Bool.and_eq_true_iff.2 ⟨hback, hnan⟩))
  · obtain ⟨c, hc, ho⟩ := ho
    have hx : Same x (ofInt n) := .of_beq hx
    exact (f.same_roundtrip hc hn (.of_beq ho) hx).trans hx.symm

/-- From the world into an axis and back. -/
theorem same_toWorld_toPlayer (f : Facing) (ho : Number.IsExact o)
    (hx : x.isNaN ∨ Number.IsExact x) : Same (o + f.toFloat * (f.toFloat * (x - o))) x := by
  rcases hx with hnan | ⟨n, hn, hx⟩
  · have hback : (o + f.toFloat * (f.toFloat * (x - o))).isNaN := by
      rwa [f.isNaN_toWorld ho.isFinite, f.isNaN_toPlayer ho.isFinite]
    exact Bool.or_eq_true_iff.2 (.inr (Bool.and_eq_true_iff.2 ⟨hback, hnan⟩))
  · obtain ⟨c, hc, ho⟩ := ho
    have hx : Same x (ofInt n) := .of_beq hx
    exact (f.same_roundtrip_world hc hn (.of_beq ho) hx).trans hx.symm

end Facing

/-! ### Frames -/

namespace Frame

/-- The two ways through a frame undo each other at a point, and a wildcard stays in its component
on both of them. -/
structure InverseAt (f : Frame) (p : Point) : Prop where
  toPlayer_toWorld : (f.toPlayer (f.toWorld p)).sameAs p
  toWorld_toPlayer : (f.toWorld (f.toPlayer p)).sameAs p
  wildcards_toWorld : (f.toWorld p).SameWildcards p
  wildcards_toPlayer : (f.toPlayer p).SameWildcards p

/-- A frame with an exact origin is invertible at exact points, some components of which may be
wildcards. -/
theorem inverseAt {f : Frame} {p : Point} (horigin : f.origin.IsExact) (hp : p.IsExactOrWild) :
    f.InverseAt p := by
  obtain ⟨⟨hox, hoy⟩, hx, hy⟩ := horigin, hp
  exact {
    toPlayer_toWorld := Bool.and_eq_true_iff.2
      ⟨f.heading.x.same_toPlayer_toWorld hox hx, f.heading.y.same_toPlayer_toWorld hoy hy⟩
    toWorld_toPlayer := Bool.and_eq_true_iff.2
      ⟨f.heading.x.same_toWorld_toPlayer hox hx, f.heading.y.same_toWorld_toPlayer hoy hy⟩
    wildcards_toWorld :=
      ⟨f.heading.x.isNaN_toWorld hox.isFinite, f.heading.y.isNaN_toWorld hoy.isFinite⟩
    wildcards_toPlayer :=
      ⟨f.heading.x.isNaN_toPlayer hox.isFinite, f.heading.y.isNaN_toPlayer hoy.isFinite⟩ }

end Frame

theorem Side.isExact_origin (side : Side) (board : Board) :
    (side.frame board).origin.IsExact := by
  obtain ⟨a, b, ha, hb, horigin⟩ := side.exists_origin_eq board
  have hself (n : Int) (hn : n.natAbs ≤ 2 ^ 52) : ofInt n == ofInt n :=
    (Number.ofInt_beq_iff (by omega) (by omega)).2 rfl
  rw [horigin]
  exact ⟨⟨a, ha, hself a ha⟩, b, hb, hself b hb⟩

/-! ### The board -/

namespace Board

variable {x y : Float} {extent : UInt32}

theorem within_of_isNaN (h : x.isNaN) : within x extent := by
  rw [within, h, Bool.true_or]

/-- The sign of a zero does not matter to whether it is within an extent. -/
theorem within_eq_of_same (h : Same x y) : within x extent = within y extent := by
  have hleast : 0 ≤ x ↔ 0 ≤ y := (Same.refl 0).le_iff h
  have hmost : x ≤ extent.toFloat - 1 ↔ y ≤ extent.toFloat - 1 := h.le_iff (.refl _)
  rw [within, within, h.isNaN_eq, decide_eq_decide.2 hleast, decide_eq_decide.2 hmost]

/-- An integer is within an extent if it is one of the coordinates that the extent has. -/
theorem within_ofInt_iff {n : Int} (hn : n.natAbs ≤ 2 ^ 53) :
    within (ofInt n) extent ↔ 0 ≤ n ∧ n < extent.toNat := by
  have hextent := extent.toNat_lt
  have hnan : (ofInt n).isNaN = false := Number.isNaN_of_isFinite (Number.isFinite_ofInt_of_le hn)
  have hleast : 0 ≤ ofInt n ↔ 0 ≤ n := Number.ofInt_le_iff (a := 0) (by omega) hn
  have hmost := Number.ofInt_le_iff (b := extent.toNat - 1) hn (by omega)
  rw [within, hnan, Bool.false_or, Bool.and_eq_true, decide_eq_true_iff, decide_eq_true_iff, hleast,
    Number.toFloat_sub_one, hmost]
  omega

/-- Along the world axis nothing moves. -/
theorem within_along : within (0 + Facing.along.toFloat * x) extent = within x extent := by
  rw [Facing.toFloat_mul]
  exact within_eq_of_same (Number.same_zero_add x)

/-- Against the world axis, from the far corner, the board has its coordinates in reverse order. -/
theorem within_against (hx : x.isNaN ∨ Number.IsExact x) :
    within (extent.toFloat - 1 + Facing.against.toFloat * x) extent = within x extent := by
  have hextent := extent.toNat_lt
  rw [Number.toFloat_sub_one]
  rcases hx with hnan | ⟨n, hn, hx⟩
  · have hfinite : (ofInt (extent.toNat - 1)).isFinite := Number.isFinite_ofInt (by omega)
    have hworld := (Facing.against.isNaN_toWorld (x := x) hfinite).trans hnan
    rw [within_of_isNaN hworld, within_of_isNaN hnan]
  · have hx : Same x (ofInt n) := .of_beq hx
    have hworld : Same (ofInt (extent.toNat - 1) + Facing.against.toFloat * x)
        (ofInt (extent.toNat - 1 - n)) := by
      have hstep := ((Same.refl _).mul hx).trans (Facing.against.same_mul_ofInt (by omega))
      have hsum := ((Same.refl _).add hstep).trans (Number.same_ofInt_add
        (a := extent.toNat - 1) (by omega) (by rw [Facing.natAbs_step_mul]; omega))
      rwa [Facing.step, Int.neg_one_mul, ← sub_eq_add_neg] at hsum
    rw [within_eq_of_same hworld, within_eq_of_same hx, Bool.eq_iff_iff,
      within_ofInt_iff (by omega), within_ofInt_iff (by omega)]
    omega

/-- A point of a side lies on the board if and only if the same coordinates of the world do. -/
theorem contains_toWorld (board : Board) (side : Side) {p : Point} (hp : p.IsExactOrWild) :
    board.contains ((side.frame board).toWorld p) = board.contains p := by
  cases side with
  | one => exact congrArg₂ (· && ·) within_along within_along
  | two => exact congrArg₂ (· && ·) (within_against hp.1) (within_against hp.2)

end Board

theorem Player.frame_of_withHeading {side : Side} {origin steps : Point} {player : Player}
    (h : Player.withHeading side origin steps = .ok player) : player.frame.origin = origin := by
  unfold Player.withHeading at h
  split at h
  · obtain rfl := Except.ok.inj h
    rfl
  · cases h

/-- On every board, both participants get a frame in which the two ways undo each other at every
point of integers up to `2 ^ 52` and of wildcards, which stay where they are, and in which the
points of the board are those of the board in the world. The two ways undo each other just so in the
frame of a player with such an origin and any heading of unit steps. -/
theorem frames_symmetric :
    (∀ (board : Board) (side : Side), ∃ player,
      Player.ofParticipant (.ofSide side) board = .ok player ∧
        ∀ p : Point, p.IsExactOrWild → player.frame.InverseAt p ∧
          (board.contains (player.frame.toWorld p) ↔ board.contains p)) ∧
    ∀ (side : Side) (origin steps : Point) (player : Player),
      Player.withHeading side origin steps = .ok player → origin.IsExact →
        ∀ p : Point, p.IsExactOrWild → player.frame.InverseAt p := by
  constructor
  · intro board side
    have hplayer : Player.ofParticipant (.ofSide side) board =
        .ok (.fresh side (side.frame board)) := by
      cases side <;> rfl
    refine ⟨_, hplayer, fun p hp ↦ ⟨Frame.inverseAt (side.isExact_origin board) hp, ?_⟩⟩
    exact Bool.eq_iff_iff.1 (board.contains_toWorld side hp)
  · intro side origin steps player hplayer horigin p hp
    exact Frame.inverseAt (Player.frame_of_withHeading hplayer ▸ horigin) hp

/-- The far corner of the longest board, and a heading against one axis only. -/
theorem frames_symmetric_edge :
    (∃ player, Player.ofParticipant ⟨2⟩ ⟨4294967295, 1, by decide, by decide⟩ = .ok player ∧
      player.frame.InverseAt ⟨4294967294, 0.0 / 0.0⟩) ∧
    ∃ player, Player.withHeading .one ⟨4503599627370496, 0⟩ ⟨-1, 1⟩ = .ok player ∧
      player.frame.InverseAt ⟨-4503599627370496, 3⟩ := by
  obtain ⟨player, hplayer, hinverse⟩ :=
    frames_symmetric.1 ⟨4294967295, 1, by decide, by decide⟩ .two
  refine ⟨⟨player, hplayer, (hinverse _ ⟨.inr ⟨4294967294, by decide, ?_⟩, .inl ?_⟩).1⟩, _, rfl, ?_⟩
  · decide +kernel
  · decide +kernel
  · refine frames_symmetric.2 .one ⟨4503599627370496, 0⟩ ⟨-1, 1⟩ _ rfl
      ⟨⟨4503599627370496, by decide, ?_⟩, 0, by decide, ?_⟩ _
      ⟨.inr ⟨-4503599627370496, by decide, ?_⟩, .inr ⟨3, by decide, ?_⟩⟩ <;> decide +kernel

end Waypoints
