import Waypoints.Expr.Fault
import Waypoints.Match.Side
/-!
# What can be wrong with the description of a match

A `ConfigError` is a reason why a board, a player or a type cannot be made. `Severity` tells faults
of the content from those that end the setup of a session.
-/

set_option autoImplicit false
set_option relaxedAutoImplicit false

namespace Waypoints

/-- How an error is to be taken. -/
inductive Severity
  /-- The content has to be changed. -/
  | validation
  /-- The session cannot be set up. -/
  | fatal
  deriving DecidableEq, Repr

namespace Severity

/-- The name of a severity. -/
def name : Severity → String
  | validation => "validation"
  | fatal => "fatal"

/-- Whether an error of this severity ends the setup of a session. -/
def isFatal : Severity → Bool
  | validation => false
  | fatal => true

end Severity

/-- Errors of expressions are faults of the content. -/
def ExprError.severity (_ : ExprError) : Severity :=
  .validation

/-- A reason why something of a match cannot be made. -/
inductive ConfigError
  /-- The participant owns no side. -/
  | unknownParticipant (participant : Participant)
  /-- A component of the heading is neither 1 nor -1. -/
  | invalidHeading (heading : Point)
  /-- The board is empty. -/
  | invalidBoard (width height : UInt32)
  /-- A piece type lists a move type that is not registered. -/
  | unknownMoveType (piece name : String)
  /-- A piece type lists a pattern type that is not registered. -/
  | unknownPatternType (piece name : String)
  | unknownPieceType (name : String)
  /-- The radius is not a finite positive number. -/
  | invalidRadius (piece : String) (radius : Float)
  /-- The cooldown is not a finite number of at least zero. -/
  | invalidCooldown (piece : String) (cooldown : Float)
  /-- An expression of a type cannot be read. -/
  | invalidExpression (owner : String) (error : ExprError)
  | tooManyPlayers
  | duplicatePlayer (side : Side)

namespace ConfigError

/-- The wording of an error. -/
def message : ConfigError → String
  | unknownParticipant participant =>
    participant.text ++ " cannot own pieces; expected player one or player two"
  | invalidHeading heading =>
    "invalid heading " ++ heading.text ++ ": components must be +1 or -1"
  | invalidBoard width height =>
    "invalid board extent " ++ toString width.toNat ++ "x" ++ toString height.toNat ++
      ": both dimensions must be positive"
  | unknownMoveType piece name =>
    "piece type '" ++ piece ++ "' references unknown move type '" ++ name ++ "'"
  | unknownPatternType piece name =>
    "piece type '" ++ piece ++ "' references unknown pattern type '" ++ name ++ "'"
  | unknownPieceType name => "unknown piece type '" ++ name ++ "'"
  | invalidRadius piece radius =>
    "piece type '" ++ piece ++ "' has invalid radius " ++ Number.text radius ++
      ": must be positive"
  | invalidCooldown piece cooldown =>
    "piece type '" ++ piece ++ "' has invalid cooldown " ++ Number.text cooldown ++
      "s: must be non-negative"
  | invalidExpression owner error =>
    "'" ++ owner ++ "' has an invalid waypoint expression: " ++ error.message
  | tooManyPlayers => "a match has at most two players"
  | duplicatePlayer side => "player " ++ side.name ++ " has already joined"

/-- The code of an error. -/
def code : ConfigError → String
  | unknownParticipant _ => "CONFIG_UNKNOWN_PARTICIPANT"
  | invalidHeading _ => "CONFIG_INVALID_HEADING"
  | invalidBoard _ _ => "CONFIG_INVALID_BOARD"
  | unknownMoveType _ _ => "CONFIG_UNKNOWN_MOVE_TYPE"
  | unknownPatternType _ _ => "CONFIG_UNKNOWN_PATTERN_TYPE"
  | unknownPieceType _ => "CONFIG_UNKNOWN_PIECE_TYPE"
  | invalidRadius _ _ => "CONFIG_INVALID_RADIUS"
  | invalidCooldown _ _ => "CONFIG_INVALID_COOLDOWN"
  | invalidExpression _ _ => "CONFIG_INVALID_EXPRESSION"
  | tooManyPlayers => "CONFIG_TOO_MANY_PLAYERS"
  | duplicatePlayer _ => "CONFIG_DUPLICATE_PLAYER"

/-- The severity of an error. -/
def severity : ConfigError → Severity
  | unknownParticipant _ => .fatal
  | invalidHeading _ => .fatal
  | invalidBoard _ _ => .fatal
  | tooManyPlayers => .fatal
  | duplicatePlayer _ => .fatal
  | unknownMoveType _ _ => .validation
  | unknownPatternType _ _ => .validation
  | unknownPieceType _ => .validation
  | invalidRadius _ _ => .validation
  | invalidCooldown _ _ => .validation
  | invalidExpression _ _ => .validation

/-- The error of an expression that caused an error. -/
def cause? : ConfigError → Option ExprError
  | invalidExpression _ error => some error
  | _ => none

end ConfigError

end Waypoints
