import Waypoints.Expr.Evaluation
import Waypoints.Expr.Parser
import Waypoints.Geometry.Board
import Waypoints.Geometry.Frame
/-!
# Formulas

A `Formula` is a waypoint expression together with the text it was read from. `relativePaths`
evaluates one for given bindings, and `worldPaths` for a position on a board, in world coordinates.
Every error names the text of the formula.
-/

set_option autoImplicit false
set_option relaxedAutoImplicit false

namespace Waypoints

/-- A text and the expression it reads as. -/
structure Formula where
  source : String
  expr : Expr
  parsed : Expr.parse source = .ok expr

namespace Formula

/-- Reads a text as a formula. -/
def parse (source : String) : Except ExprError Formula :=
  match parsed : Expr.parse source with
  | .ok expr => .ok ⟨source, expr, parsed⟩
  | .error error => .error ⟨source, .malformed error⟩

/-- The text that displays a formula. -/
def text (f : Formula) : String :=
  f.source

/-- Whether two formulas have the same text and equal trees. -/
def same (f g : Formula) : Bool :=
  f.source == g.source && f.expr.same g.expr

/-- Evaluates a formula to paths in the frame of the bindings. -/
def relativePaths (f : Formula) (b : Bindings) : Except ExprError (List Path) :=
  match f.expr.evaluate b with
  | .error fault => .error ⟨f.source, .failed fault⟩
  | .ok v =>
    match v.toPaths? with
    | some paths => .ok paths
    | none => .error ⟨f.source, .misshapen v⟩

end Formula

/-- The bindings for a place in a player's frame on a board. -/
def Bindings.ofPlace (place : Point) (board : Board) (anyOk : Bool) : Bindings :=
  ⟨place.x, place.y, board.width.toFloat, board.height.toFloat, anyOk⟩

/-- Paths of a frame in world coordinates. -/
def Frame.pathsToWorld (frame : Frame) (paths : List Path) : List Path :=
  paths.map fun path ↦ path.map frame.toWorld

namespace Formula

/-- Evaluates a formula for a piece of the frame at a world position, and gives world paths. -/
def worldPaths (f : Formula) (frame : Frame) (position : Point) (board : Board) (anyOk : Bool) :
    Except ExprError (List Path) := do
  let paths ← f.relativePaths (.ofPlace (frame.toPlayer position) board anyOk)
  return frame.pathsToWorld paths

/-- Evaluates formulas in order and puts their paths in one row. -/
def allWorldPaths (formulas : List Formula) (frame : Frame) (position : Point) (board : Board)
    (anyOk : Bool) : Except ExprError (List Path) := do
  let paths ← formulas.mapM (·.worldPaths frame position board anyOk)
  return paths.flatten

end Formula

end Waypoints
