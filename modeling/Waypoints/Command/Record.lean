import Waypoints.Command.Json
import Waypoints.Command.Preview
/-!
# The record of a preview

A preview as a JSON value.
-/

set_option autoImplicit false
set_option relaxedAutoImplicit false

namespace Waypoints

/-- The record of a point. -/
def Point.record (p : Point) : Json.Value :=
  .array [.number p.x, .number p.y]

/-- The record of a path. -/
def Path.record (path : Path) : Json.Value :=
  .array (path.map Point.record)

/-- The record of a move. -/
def Move.record (board : Board) (m : Move) : Json.Value :=
  .object [
    ("move_type", .string m.kind.name),
    ("mode", .string m.mode.name),
    ("on_board", .boolean (m.isOnBoard board)),
    ("path", Path.record m.path)]

/-- The record of a pattern. -/
def Pattern.record (p : Pattern) : Json.Value :=
  .object [
    ("pattern_type", .string p.kind.name),
    ("must_complete", .boolean p.isCaptive),
    ("on_complete", .array (p.kind.onComplete.map .string)),
    ("path", Path.record p.path)]

/-- The record of a piece. It has no field for patterns that are not shown. -/
def PieceView.record (board : Board) (v : PieceView) : Json.Value :=
  let patterns : List (String × Json.Value) := match v.patterns with
    | some patterns => [("patterns", .array (patterns.map Pattern.record))]
    | none => []
  .object ([
    ("id", .string v.piece.id.text),
    ("owner", .string v.piece.owner.name),
    ("piece_type", .string v.piece.kind.name),
    ("position", v.piece.position.record),
    ("moves", .array (v.moves.map (Move.record board)))] ++ patterns)

/-- The record of a preview. -/
def MatchView.record (v : MatchView) : Json.Value :=
  .object [
    ("width", .count v.board.width.toNat),
    ("height", .count v.board.height.toNat),
    ("pieces", .array (v.pieces.map (PieceView.record v.board)))]

end Waypoints
