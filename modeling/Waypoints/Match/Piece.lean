import Waypoints.Match.Move
/-!
# Pieces

A piece stands at a world position and sees the board in its owner's frame. `possibleMoves` and
`possiblePatterns` evaluate the formulas of its type: the types in the order in which they are
listed, the formulas of a type in order, the paths of a formula in order. A `Rule` selects legal
moves.
-/

set_option autoImplicit false
set_option relaxedAutoImplicit false

namespace Waypoints

/-- A piece on the board. -/
structure Piece where
  id : PieceId
  frame : Frame
  kind : PieceType
  /-- The world position. -/
  position : Point
  currentMove : Option Move
  currentPattern : Option Pattern

namespace Piece

/-- A piece that has not begun to move. -/
def fresh (id : PieceId) (frame : Frame) (kind : PieceType) (position : Point) : Piece :=
  ⟨id, frame, kind, position, none, none⟩

/-- The side that owns the piece. -/
def owner (p : Piece) : Side :=
  p.id.owner

/-- The position in the owner's frame. -/
def playerPosition (p : Piece) : Point :=
  p.frame.toPlayer p.position

/-- Whether an unfinished captive pattern holds the piece. -/
def isHeld (p : Piece) : Bool :=
  p.currentPattern.any fun pattern ↦ pattern.isCaptive && !pattern.isComplete

/-- What the board binds in the formulas of the piece. -/
def bindings (p : Piece) (board : Board) (anyOk : Bool) : Bindings :=
  .ofPlace p.playerPosition board anyOk

/-- The world paths of formulas for the piece. -/
def paths (p : Piece) (board : Board) (formulas : List Formula) (anyOk : Bool) :
    Except ExprError (List Path) :=
  Formula.allWorldPaths formulas p.frame p.position board anyOk

/-- The moves that one move type offers the piece. -/
def movesOf (p : Piece) (board : Board) (kind : MoveType) : Except ExprError (List Move) := do
  return (← p.paths board kind.formulas false).map (⟨kind, p.id, ·⟩)

/-- The patterns that one pattern type lays out for the piece. They may use wildcards. -/
def patternsOf (p : Piece) (board : Board) (kind : PatternType) :
    Except ExprError (List Pattern) := do
  return (← p.paths board kind.formulas true).map (Pattern.fresh kind p.id)

/-- All moves that the piece's type describes. -/
def possibleMoves (p : Piece) (board : Board) : Except ExprError (List Move) := do
  return (← p.kind.moves.mapM (p.movesOf board)).flatten

/-- All patterns that the piece's type describes. -/
def possiblePatterns (p : Piece) (board : Board) : Except ExprError (List Pattern) := do
  return (← p.kind.patterns.mapM (p.patternsOf board)).flatten

end Piece

/-- Whether every waypoint of a move lies on the board. -/
def Move.isOnBoard (m : Move) (board : Board) : Bool :=
  m.path.all board.contains

/-- Which moves of a piece are allowed. -/
abbrev Rule := Piece → Move → Bool

namespace Rule

/-- Everything is allowed. -/
def all : Rule :=
  fun _ _ ↦ true

/-- Nothing is allowed. -/
def nothing : Rule :=
  fun _ _ ↦ false

/-- Moves that stay on the board are allowed. -/
def inside (board : Board) : Rule :=
  fun _ m ↦ m.isOnBoard board

/-- Jumps are allowed. -/
def jump : Rule :=
  fun _ m ↦ m.mode == .jump

/-- Moves of pieces that no pattern holds are allowed. -/
def free : Rule :=
  fun p _ ↦ !p.isHeld

/-- The rule with a given name. An unknown name allows nothing. -/
def ofName (board : Board) : String → Rule
  | "all" => all
  | "inside" => inside board
  | "jump" => jump
  | "free" => free
  | _ => nothing

end Rule

/-- The possible moves that a rule allows, in the same order. -/
def Piece.legalMoves (p : Piece) (board : Board) (rule : Rule) : Except ExprError (List Move) := do
  return (← p.possibleMoves board).filter (rule p)

end Waypoints
