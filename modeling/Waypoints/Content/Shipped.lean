import Waypoints.Content.Config
/-!
# The shipped match

A chess-like set on a board of eight by eight. Waypoints are seen from the moving player's side of
the board, so `y` grows toward the opponent. Rays run over the whole extent of the board; whoever
carries a slide out stops it at the first obstruction and at the edge.
-/

set_option autoImplicit false
set_option relaxedAutoImplicit false

namespace Waypoints.Shipped

/-- The ways of moving. -/
def moves : List (String × MoveParams) := [
  ("pawn_step", ⟨.jump, ["(x, y + 1)"]⟩),
  ("pawn_advance", ⟨.slide, ["[(x, y + 1), (x, y + 2)]"]⟩),
  ("pawn_capture", ⟨.jump, ["[[(x - 1, y + 1)], [(x + 1, y + 1)]]"]⟩),
  ("knight_leap", ⟨.jump,
    ["[[(x + dx, y + dy)] for dx in [-2, -1, 1, 2] for dy in [-2, -1, 1, 2] " ++
      "if dx * dx + dy * dy == 5]"]⟩),
  ("orthogonal_ray", ⟨.slide,
    ["[[(x + dx * i, y + dy * i) for i in range(1, w)] for dx in [-1, 0, 1] " ++
      "for dy in [-1, 0, 1] if dx * dy == 0 and (dx or dy)]"]⟩),
  ("diagonal_ray", ⟨.slide,
    ["[[(x + dx * i, y + dy * i) for i in range(1, w)] for dx in [-1, 1] for dy in [-1, 1]]"]⟩),
  ("king_step", ⟨.jump,
    ["[[(x + dx, y + dy)] for dx in [-1, 0, 1] for dy in [-1, 0, 1] if dx or dy]"]⟩)]

/-- The patterns. A pawn has to go on to the far row, where it becomes a queen. -/
def patterns : List (String × PatternParams) := [
  ("promote", ⟨["(any, h - 1)"], ["upgrade queen"], true⟩)]

/-- The kinds of pieces. -/
def pieces : List (String × PieceParams) := [
  ("pawn", ⟨0.3, ["pawn_step", "pawn_advance", "pawn_capture"], ["promote"], 1⟩),
  ("knight", ⟨0.35, ["knight_leap"], [], 2⟩),
  ("bishop", ⟨0.35, ["diagonal_ray"], [], 2⟩),
  ("rook", ⟨0.4, ["orthogonal_ray"], [], 2.5⟩),
  ("queen", ⟨0.4, ["orthogonal_ray", "diagonal_ray"], [], 3⟩),
  ("king", ⟨0.45, ["king_step"], [], 1.5⟩)]

/-- The opening position of a player: the row of pieces at its edge, and a row of pawns before
them. -/
def setup : List Placement := [
  ⟨"rook", 0, 0⟩, ⟨"knight", 1, 0⟩, ⟨"bishop", 2, 0⟩, ⟨"queen", 3, 0⟩,
  ⟨"king", 4, 0⟩, ⟨"bishop", 5, 0⟩, ⟨"knight", 6, 0⟩, ⟨"rook", 7, 0⟩,
  ⟨"pawn", 0, 1⟩, ⟨"pawn", 1, 1⟩, ⟨"pawn", 2, 1⟩, ⟨"pawn", 3, 1⟩,
  ⟨"pawn", 4, 1⟩, ⟨"pawn", 5, 1⟩, ⟨"pawn", 6, 1⟩, ⟨"pawn", 7, 1⟩]

/-- The shipped match. -/
def config : MatchConfig where
  board := ⟨8, 8⟩
  moves := .ofList moves
  patterns := .ofList patterns
  pieces := .ofList pieces
  setup := setup

end Waypoints.Shipped
