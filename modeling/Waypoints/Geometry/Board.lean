import Waypoints.Geometry.Point
/-!
# The board

A board is a rectangle of whole coordinates from the origin to its `corner`, never empty.
-/

set_option autoImplicit false
set_option relaxedAutoImplicit false

namespace Waypoints

/-- The extent of the playing field. -/
structure Board where
  width : UInt32
  height : UInt32
  width_ne_zero : width ≠ 0
  height_ne_zero : height ≠ 0
  deriving DecidableEq

namespace Board

/-- The board of a given extent, unless the extent is empty. -/
def ofExtent? (width height : UInt32) : Option Board :=
  if h : width ≠ 0 ∧ height ≠ 0 then some ⟨width, height, h.1, h.2⟩ else none

/-- The world coordinate of the corner opposite the origin. -/
def corner (b : Board) : Point :=
  ⟨b.width.toFloat - 1, b.height.toFloat - 1⟩

/-- A component within an extent. The wildcard is within every extent. -/
def within (value : Float) (extent : UInt32) : Bool :=
  value.isNaN || (0 ≤ value && value ≤ extent.toFloat - 1)

/-- Whether a world coordinate lies on the board. -/
def contains (b : Board) (p : Point) : Bool :=
  within p.x b.width && within p.y b.height

end Board

end Waypoints
