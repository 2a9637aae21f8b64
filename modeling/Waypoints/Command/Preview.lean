import Waypoints.Command.Check
import Waypoints.Command.Invocation
/-!
# Previewing a match

A preview shows the pieces of the opening position, each with the moves, and if wanted the
patterns, that it has there. It may be limited to the pieces of one side.
-/

set_option autoImplicit false
set_option relaxedAutoImplicit false

namespace Waypoints

/-- Why there is no preview of a match. -/
inductive PreviewError
  | setup (error : ConfigError)
  | moves (piece : PieceId) (error : ExprError)
  | patterns (piece : PieceId) (error : ExprError)

/-- The reasons of an error, each followed by what caused it. -/
def PreviewError.chain : PreviewError → List String
  | setup e => "Failed to set up match" :: e.chain
  | moves piece e => ["Failed to generate moves for " ++ piece.text, e.message]
  | patterns piece e => ["Failed to generate patterns for " ++ piece.text, e.message]

/-- A piece and what it can do. -/
structure PieceView where
  piece : Piece
  moves : List Move
  /-- The patterns, if they are shown. -/
  patterns : Option (List Pattern)

/-- A board and the pieces on it that are shown. -/
structure MatchView where
  board : Board
  pieces : List PieceView

/-- The view of a piece. -/
def Piece.view (board : Board) (withPatterns : Bool) (p : Piece) :
    Except PreviewError PieceView := do
  let moves ← (p.legalMoves board .all).mapError (.moves p.id)
  if withPatterns then
    let patterns ← (p.possiblePatterns board).mapError (.patterns p.id)
    return ⟨p, moves, some patterns⟩
  else return ⟨p, moves, none⟩

/-- The pieces of a side, or all of them. -/
def World.piecesOf (w : World) (side : Option Side) : List Piece :=
  w.pieces.filter fun p ↦ side.all (p.owner == ·)

/-- The view of a world. -/
def World.view (w : World) (withPatterns : Bool) (side : Option Side) :
    Except PreviewError MatchView := do
  return ⟨w.board, ← (w.piecesOf side).mapM (Piece.view w.board withPatterns)⟩

/-- The preview of a match. -/
def MatchConfig.preview (config : MatchConfig) (withPatterns : Bool) (side : Option Side) :
    Except PreviewError MatchView := do
  let w ← (World.setup config).mapError .setup
  w.view withPatterns side

end Waypoints
