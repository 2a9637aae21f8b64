import Waypoints.Geometry.Point
/-!
# Frames of reference

A player sees the board from an origin, with each axis running along the world axis or against it.
`Frame.toWorld` and `Frame.toPlayer` carry points between that view and the world. The former puts a
point where the frame shows it (`Frame.shows_iff`), the latter where it is seen (`Frame.sees_iff`).
-/

set_option autoImplicit false
set_option relaxedAutoImplicit false

namespace Waypoints

/-- How an axis of a frame runs relative to the world axis. -/
inductive Facing
  | along
  | against
  deriving DecidableEq, Repr

namespace Facing

/-- The unit step of the axis, in world coordinates. -/
def toFloat : Facing → Float
  | along => 1
  | against => -1

/-- The facing with a given unit step. -/
def ofFloat? (step : Float) : Option Facing :=
  if step == 1 then some along
  else if step == -1 then some against
  else none

end Facing

/-- The facing of both axes. -/
structure Heading where
  x : Facing
  y : Facing
  deriving DecidableEq, Repr

namespace Heading

/-- Both axes run along the world axes. -/
def forward : Heading :=
  ⟨.along, .along⟩

/-- Both axes run against the world axes. -/
def reversed : Heading :=
  ⟨.against, .against⟩

/-- The unit steps of the two axes. -/
def toPoint (h : Heading) : Point :=
  ⟨h.x.toFloat, h.y.toFloat⟩

/-- The heading with given unit steps, each of which has to be 1 or -1. -/
def ofPoint? (steps : Point) : Option Heading := do
  let x ← Facing.ofFloat? steps.x
  let y ← Facing.ofFloat? steps.y
  return ⟨x, y⟩

end Heading

/-- A player's view of the board. -/
structure Frame where
  origin : Point
  heading : Heading

namespace Frame

/-- The world's own frame. -/
def world : Frame :=
  ⟨.zero, .forward⟩

/-- The world coordinate of a point of the frame. -/
def toWorld (f : Frame) (p : Point) : Point :=
  f.origin + f.heading.toPoint.hadamard p

/-- The coordinate in the frame of a point of the world. -/
def toPlayer (f : Frame) (p : Point) : Point :=
  f.heading.toPoint.hadamard (p - f.origin)

/-- A point of the world is where a point of the frame is: from the origin, as far as that point is,
along each axis or against it. -/
structure Shows (f : Frame) (p world : Point) : Prop where
  x_eq : world.x = f.origin.x + (if f.heading.x = .along then 1 else -1) * p.x
  y_eq : world.y = f.origin.y + (if f.heading.y = .along then 1 else -1) * p.y

/-- A point of the frame is where a point of the world is seen: as far as that point is from the
origin, along each axis or against it. -/
structure Sees (f : Frame) (world p : Point) : Prop where
  x_eq : p.x = (if f.heading.x = .along then 1 else -1) * (world.x - f.origin.x)
  y_eq : p.y = (if f.heading.y = .along then 1 else -1) * (world.y - f.origin.y)

end Frame

theorem Facing.toFloat_eq (f : Facing) : f.toFloat = if f = .along then 1 else -1 := by
  cases f <;> rfl

theorem Frame.shows_iff {f : Frame} {p world : Point} : f.Shows p world ↔ world = f.toWorld p := by
  change _ ↔ world = ⟨f.origin.x + f.heading.x.toFloat * p.x,
    f.origin.y + f.heading.y.toFloat * p.y⟩
  rw [Facing.toFloat_eq, Facing.toFloat_eq]
  constructor
  · rintro ⟨hx, hy⟩
    rw [← hx, ← hy]
  · rintro rfl
    exact ⟨rfl, rfl⟩

theorem Frame.sees_iff {f : Frame} {world p : Point} : f.Sees world p ↔ p = f.toPlayer world := by
  change _ ↔ p = ⟨f.heading.x.toFloat * (world.x - f.origin.x),
    f.heading.y.toFloat * (world.y - f.origin.y)⟩
  rw [Facing.toFloat_eq, Facing.toFloat_eq]
  constructor
  · rintro ⟨hx, hy⟩
    rw [← hx, ← hy]
  · rintro rfl
    exact ⟨rfl, rfl⟩

end Waypoints
