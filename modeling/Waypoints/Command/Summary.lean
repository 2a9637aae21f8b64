import Waypoints.Command.Preview
/-!
# The summary of a preview

A preview as lines of text: a title, then for each piece a line of its own, its moves and its
patterns, one on each line, and an empty line.
-/

set_option autoImplicit false
set_option relaxedAutoImplicit false

namespace Waypoints

/-- Fills a text up with blanks to a number of characters. -/
def padTo (width : Nat) (text : String) : String :=
  text ++ String.ofList (.replicate (width - text.length) ' ')

/-- The text of a path. -/
def Path.text (path : Path) : String :=
  " -> ".intercalate (path.map Point.text)

/-- The line of a move. -/
def Move.summary (board : Board) (m : Move) : String :=
  let place := if m.isOnBoard board then "on board" else "leaves board"
  "  " ++ padTo 16 m.kind.name ++ " " ++ padTo 5 m.mode.name ++ " " ++ Path.text m.path ++
    " [" ++ place ++ "]"

/-- The line of a pattern. -/
def Pattern.summary (p : Pattern) : String :=
  "  pattern " ++ p.kind.name ++ " " ++ Path.text p.path ++
    if p.isCaptive then " (must complete)" else ""

/-- The lines of a piece. -/
def PieceView.summary (board : Board) (v : PieceView) : List String :=
  [v.piece.id.text ++ " " ++ v.piece.kind.name ++ " at " ++ v.piece.position.text] ++
    v.moves.map (Move.summary board) ++
    (v.patterns.getD []).map Pattern.summary ++ [""]

/-- The lines of a preview. -/
def MatchView.summary (v : MatchView) : List String :=
  ["=== Match Preview ===",
    "  Board: " ++ toString v.board.width.toNat ++ "x" ++ toString v.board.height.toNat,
    "  Pieces: " ++ toString v.pieces.length,
    ""] ++ v.pieces.flatMap (PieceView.summary v.board)

end Waypoints
