import Waypoints.Content.NameMap
import Waypoints.Geometry.Point
/-!
# Descriptions of matches

The records of a match as its author writes them: the extent of the board, the move, pattern and
piece types by name, and the pieces with which each player starts. Nothing in them is checked yet.
-/

set_option autoImplicit false
set_option relaxedAutoImplicit false

namespace Waypoints

/-- How a move travels its waypoints: a jump lands on the last one at once, a slide occupies every
one in turn. -/
inductive MoveMode
  | jump
  | slide
  deriving DecidableEq, Repr

namespace MoveMode

/-- The name of a mode. -/
def name : MoveMode → String
  | jump => "jump"
  | slide => "slide"

/-- The mode with exactly this name. -/
def ofName? (word : String) : Option MoveMode :=
  [jump, slide].find? (·.name == word)

/-- The mode with this name in small or capital ASCII letters. -/
def ofText? (text : String) : Option MoveMode :=
  ofName? (text.map Char.toLower)

end MoveMode

/-- The extent of a board, possibly empty. -/
structure Extent where
  width : UInt32
  height : UInt32
  deriving DecidableEq, Repr

/-- A move type's mode and expressions. -/
structure MoveParams where
  mode : MoveMode
  waypoints : List String
  deriving DecidableEq, Repr

/-- A pattern type's expressions, the consequences of completing it, and whether it holds the piece
until it is complete. -/
structure PatternParams where
  waypoints : List String
  onComplete : List String
  mustComplete : Bool
  deriving DecidableEq, Repr

/-- A piece type's size, the names of its move and pattern types, and the seconds between its
moves. -/
structure PieceParams where
  radius : Float
  moves : List String
  patterns : List String
  cooldown : Float
  deriving DecidableEq

/-- A piece of a type at a place in the player's frame. -/
structure Placement where
  name : String
  place : Point

/-- The description of a match. -/
structure MatchConfig where
  board : Extent
  moves : NameMap MoveParams
  patterns : NameMap PatternParams
  pieces : NameMap PieceParams
  setup : List Placement

end Waypoints
