import Waypoints.Match.Player
/-!
# The world of a match

A `World` is a board, the types of the match and the players who have joined. `World.setup` makes
the opening position of a described match.
-/

set_option autoImplicit false
set_option relaxedAutoImplicit false

namespace Waypoints

/-- The board of a given extent, which may not be empty. -/
def Extent.toBoard (extent : Extent) : Except ConfigError Board :=
  match Board.ofExtent? extent.width extent.height with
  | some board => .ok board
  | none => .error (.invalidBoard extent.width extent.height)

/-- Everything that a match needs. -/
structure World where
  board : Board
  registry : Registry
  /-- The players, in the order in which they joined. -/
  players : List Player

namespace World

/-- The greatest number of players. -/
def maxPlayers : Nat := 2

/-- A world without players. -/
def fresh (board : Board) (registry : Registry) : World :=
  ⟨board, registry, []⟩

/-- Seats a participant. -/
def addPlayer (w : World) (participant : Participant) : Except ConfigError (World × Player) := do
  let player ← Player.ofParticipant participant w.board
  if maxPlayers ≤ w.players.length then
    throw .tooManyPlayers
  else if w.players.any (·.side == player.side) then
    throw (.duplicatePlayer player.side)
  else
    return ({ w with players := w.players ++ [player] }, player)

/-- The player of a side. -/
def player? (w : World) (side : Side) : Option Player :=
  w.players.find? (·.side == side)

/-- Changes the player of a side. -/
def updatePlayer (w : World) (side : Side) (f : Player → Player) : World :=
  { w with players := updateFirst (·.side == side) f w.players }

/-- The pieces of all players, in the order in which the players joined. -/
def pieces (w : World) : List Piece :=
  w.players.flatMap (·.pieces)

/-- The piece of a given identifier. -/
def piece? (w : World) (id : PieceId) : Option Piece := do
  (← w.player? id.owner).piece? id

/-- Changes the piece of a given identifier. -/
def updatePiece (w : World) (id : PieceId) (f : Piece → Piece) : World :=
  w.updatePlayer id.owner (·.updatePiece id f)

/-- Adds the starting pieces of every player. -/
def placeAll (w : World) (placements : List Placement) : Except ConfigError World := do
  let players ← w.players.mapM fun player ↦ (·.1) <$> player.place w.registry placements
  return { w with players := players }

/-- The opening position of a described match: both players, each with the same placements in its
own frame. -/
def setup (config : MatchConfig) : Except ConfigError World := do
  let board ← config.board.toBoard
  let registry ← Registry.ofConfig config
  let (w, _) ← (fresh board registry).addPlayer (.ofSide .one)
  let (w, _) ← w.addPlayer (.ofSide .two)
  w.placeAll config.setup

end World

end Waypoints
