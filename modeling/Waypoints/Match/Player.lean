import Waypoints.Content.Registry
import Waypoints.Match.Piece
/-!
# Players

A player owns the pieces of one side, in the order in which they came, and numbers them from zero.
The counter of the numbers is a 32-bit word.
-/

set_option autoImplicit false
set_option relaxedAutoImplicit false

namespace Waypoints

/-- Changes the first element that a test accepts. -/
def updateFirst {α : Type} (test : α → Bool) (f : α → α) : List α → List α
  | [] => []
  | a :: rest => if test a then f a :: rest else a :: updateFirst test f rest

/-- The frame in which a side sees a board: the first side from the origin, the second from the
far corner with both axes reversed. -/
def Side.frame (side : Side) (board : Board) : Frame :=
  match side with
  | .one => ⟨.zero, .forward⟩
  | .two => ⟨board.corner, .reversed⟩

/-- A side sits in a frame: the first at the origin and facing along both axes, the second at the
greatest coordinates of the board and facing against both. -/
def Side.Sits (side : Side) (board : Board) (frame : Frame) : Prop :=
  match side with
  | .one => frame = ⟨⟨0, 0⟩, ⟨.along, .along⟩⟩
  | .two => frame = ⟨⟨board.width.toFloat - 1, board.height.toFloat - 1⟩, ⟨.against, .against⟩⟩

theorem Side.sits_iff {side : Side} {board : Board} {frame : Frame} :
    side.Sits board frame ↔ frame = side.frame board := by
  cases side <;> rfl

/-- One side of a match. -/
structure Player where
  side : Side
  frame : Frame
  pieces : List Piece
  /-- The number of the next piece. -/
  nextIndex : UInt32

namespace Player

/-- A player without pieces. -/
def fresh (side : Side) (frame : Frame) : Player :=
  ⟨side, frame, [], 0⟩

/-- A player without pieces in a frame with given unit steps. -/
def withHeading (side : Side) (origin heading : Point) : Except ConfigError Player :=
  match Heading.ofPoint? heading with
  | some h => .ok (fresh side ⟨origin, h⟩)
  | none => .error (.invalidHeading heading)

/-- The player that a participant becomes on a board. -/
def ofParticipant (participant : Participant) (board : Board) : Except ConfigError Player :=
  match participant.side? with
  | some side => .ok (fresh side (side.frame board))
  | none => .error (.unknownParticipant participant)

/-- The piece of a given identifier. -/
def piece? (p : Player) (id : PieceId) : Option Piece :=
  p.pieces.find? (·.id == id)

/-- Changes the piece of a given identifier. -/
def updatePiece (p : Player) (id : PieceId) (f : Piece → Piece) : Player :=
  { p with pieces := updateFirst (·.id == id) f p.pieces }

/-- Adds a piece at a world position and gives it the next number. -/
def spawn (p : Player) (kind : PieceType) (position : Point) : Player × PieceId :=
  let id : PieceId := ⟨p.side, p.nextIndex⟩
  let piece := Piece.fresh id p.frame kind position
  ({ p with pieces := p.pieces ++ [piece], nextIndex := p.nextIndex + 1 }, id)

/-- Adds several pieces at world positions, in order. -/
def gain (p : Player) : List (PieceType × Point) → Player × List PieceId
  | [] => (p, [])
  | (kind, position) :: rest =>
    let (p, id) := p.spawn kind position
    let (p, ids) := p.gain rest
    (p, id :: ids)

/-- Takes a piece off the board. -/
def remove? (p : Player) (id : PieceId) : Option (Player × Piece) := do
  let piece ← p.piece? id
  return ({ p with pieces := p.pieces.eraseP (·.id == id) }, piece)

/-- The type and the world position of a placement in the player's frame. -/
def locate (p : Player) (registry : Registry) (placement : Placement) :
    Except ConfigError (PieceType × Point) := do
  return (← registry.requirePiece placement.name, p.frame.toWorld placement.place)

/-- Adds the pieces of placements in the player's frame, or none of them if one is of an unknown
type. -/
def place (p : Player) (registry : Registry) (placements : List Placement) :
    Except ConfigError (Player × List PieceId) := do
  return p.gain (← placements.mapM (p.locate registry))

end Player

end Waypoints
