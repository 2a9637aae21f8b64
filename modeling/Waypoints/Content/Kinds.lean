import Waypoints.Content.Config
import Waypoints.Content.ConfigError
import Waypoints.Expr.Formula
/-!
# Types of moves, patterns and pieces

The checked forms of what a match describes: expressions are read, sizes and times make sense, and
a piece type lists each pattern type once.
-/

set_option autoImplicit false
set_option relaxedAutoImplicit false

namespace Waypoints

/-- A named way of moving. -/
structure MoveType where
  name : String
  mode : MoveMode
  formulas : List Formula

/-- A named row of waypoints that a piece may go through. The consequences of completing it are
kept as they are written. -/
structure PatternType where
  name : String
  formulas : List Formula
  onComplete : List String
  mustComplete : Bool

/-- A finite positive number. -/
def validRadius (radius : Float) : Bool :=
  radius.isFinite && 0 < radius

/-- A finite number of at least zero. -/
def validCooldown (cooldown : Float) : Bool :=
  cooldown.isFinite && 0 ≤ cooldown

/-- A named kind of piece. -/
structure PieceType where
  name : String
  radius : Float
  moves : List MoveType
  patterns : List PatternType
  cooldown : Float
  radius_valid : validRadius radius
  cooldown_valid : validCooldown cooldown

/-- Reads the expressions of the type called `owner`, in order. -/
def readFormulas (owner : String) (sources : List String) : Except ConfigError (List Formula) :=
  sources.mapM fun source ↦ (Formula.parse source).mapError (.invalidExpression owner)

/-- The move type that a name and its description give. -/
def MoveType.ofParams (name : String) (params : MoveParams) : Except ConfigError MoveType := do
  return ⟨name, params.mode, ← readFormulas name params.waypoints⟩

/-- The pattern type that a name and its description give. -/
def PatternType.ofParams (name : String) (params : PatternParams) :
    Except ConfigError PatternType := do
  let formulas ← readFormulas name params.waypoints
  return ⟨name, formulas, params.onComplete, params.mustComplete⟩

/-- Drops every pattern type whose name stands earlier in the row. -/
def firstOfEachName : List PatternType → List PatternType
  | [] => []
  | p :: ps => p :: (firstOfEachName ps).filter (·.name != p.name)

/-- The piece type with the given parts, if its size and its time make sense. -/
def PieceType.make (name : String) (radius : Float) (moves : List MoveType)
    (patterns : List PatternType) (cooldown : Float) : Except ConfigError PieceType :=
  if hradius : validRadius radius then
    if hcooldown : validCooldown cooldown then
      .ok ⟨name, radius, moves, firstOfEachName patterns, cooldown, hradius, hcooldown⟩
    else .error (.invalidCooldown name cooldown)
  else .error (.invalidRadius name radius)

end Waypoints
