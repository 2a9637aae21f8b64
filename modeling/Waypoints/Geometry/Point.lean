import Waypoints.Number.Text
/-!
# Points of the plane

A `Point` is a continuous coordinate or a displacement. A NaN component is the wildcard: it passes
through sums, differences and products untouched, matches any coordinate, and is written `any`.
-/

set_option autoImplicit false
set_option relaxedAutoImplicit false

namespace Waypoints

/-- A coordinate or displacement. -/
structure Point where
  x : Float
  y : Float
  deriving DecidableEq

namespace Point

/-- The origin. -/
def zero : Point :=
  ⟨0, 0⟩

instance : Add Point where
  add p q := ⟨p.x + q.x, p.y + q.y⟩

instance : Sub Point where
  sub p q := ⟨p.x - q.x, p.y - q.y⟩

/-- Numerical equality, component by component. A wildcard equals nothing. -/
instance : BEq Point where
  beq p q := p.x == q.x && p.y == q.y

/-- The product, component by component. -/
def hadamard (p q : Point) : Point :=
  ⟨p.x * q.x, p.y * q.y⟩

/-- Equal numbers, or two wildcards. -/
def sameComponent (a b : Float) : Bool :=
  a == b || (a.isNaN && b.isNaN)

/-- Equality in which a wildcard equals a wildcard. -/
def sameAs (p q : Point) : Bool :=
  sameComponent p.x q.x && sameComponent p.y q.y

/-- The text of a point. -/
def text (p : Point) : String :=
  "(" ++ Number.literal p.x ++ ", " ++ Number.literal p.y ++ ")"

end Point

/-- Waypoints in the order in which they are travelled. -/
abbrev Path := List Point

end Waypoints
