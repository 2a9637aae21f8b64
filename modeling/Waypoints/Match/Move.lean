import Waypoints.Content.Kinds
import Waypoints.Match.Side
/-!
# Moves and patterns of a piece

A `Move` is one way for a piece to travel. A `Pattern` is a path laid out for a piece, with the
number of its waypoints that the piece has reached; `advance` reaches one more.
-/

set_option autoImplicit false
set_option relaxedAutoImplicit false

namespace Waypoints

/-- A move type applied to a piece, with world waypoints in the order of travel. -/
structure Move where
  kind : MoveType
  piece : PieceId
  path : Path

namespace Move

/-- How the move travels. -/
def mode (m : Move) : MoveMode :=
  m.kind.mode

/-- Where the piece ends up. -/
def destination? (m : Move) : Option Point :=
  m.path.getLast?

end Move

/-- A pattern type laid out for a piece, in world waypoints. A wildcard component matches any
coordinate. -/
structure Pattern where
  kind : PatternType
  piece : PieceId
  path : Path
  /-- How many waypoints the piece has reached. -/
  reached : Nat

namespace Pattern

/-- A pattern of which nothing is reached yet. -/
def fresh (kind : PatternType) (piece : PieceId) (path : Path) : Pattern :=
  ⟨kind, piece, path, 0⟩

/-- Whether the pattern keeps the piece from other moves until it is complete. -/
def isCaptive (p : Pattern) : Bool :=
  p.kind.mustComplete

/-- The waypoint to be reached next. -/
def next? (p : Pattern) : Option Point :=
  p.path[p.reached]?

/-- Whether every waypoint is reached. -/
def isComplete (p : Pattern) : Bool :=
  p.path.length ≤ p.reached

/-- Reaches the next waypoint, and says whether there was one. -/
def advance (p : Pattern) : Pattern × Bool :=
  if p.isComplete then (p, false) else ({ p with reached := p.reached + 1 }, true)

end Pattern

end Waypoints
