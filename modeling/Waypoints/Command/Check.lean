import Waypoints.Match.World
/-!
# Checking a match

A match is checked by making its types and its opening position and by generating every move and
every pattern of every piece there once. `MatchConfig.check` says how far that gets, and counts what
it finds.
-/

set_option autoImplicit false
set_option relaxedAutoImplicit false

namespace Waypoints

/-- Why a match is at fault. -/
inductive MatchError
  | config (error : ConfigError)
  | expr (error : ExprError)

/-- The reasons of an error, each followed by what caused it. -/
def ConfigError.chain (e : ConfigError) : List String :=
  e.message :: (e.cause?.map ExprError.message).toList

namespace MatchError

/-- The code of an error. -/
def code : MatchError → String
  | config e => e.code
  | expr e => e.errorClass.code

/-- The severity of an error. -/
def severity : MatchError → Severity
  | config e => e.severity
  | expr e => e.severity

/-- The reasons of an error, each followed by what caused it. -/
def chain : MatchError → List String
  | config e => e.chain
  | expr e => [e.message]

end MatchError

/-- How many types a match has. -/
structure ContentCounts where
  moves : Nat
  patterns : Nat
  pieces : Nat
  deriving DecidableEq, Repr

/-- How many types a registry holds. -/
def ContentCounts.ofRegistry (r : Registry) : ContentCounts :=
  ⟨r.moves.size, r.patterns.size, r.pieces.size⟩

/-- How many pieces, moves and patterns there are in an opening position. -/
structure OpeningCounts where
  pieces : Nat
  moves : Nat
  patterns : Nat
  deriving DecidableEq, Repr

/-- The moves and the patterns of a piece. -/
def Piece.choices (board : Board) (p : Piece) : Except ExprError (List Move × List Pattern) := do
  let moves ← p.possibleMoves board
  let patterns ← p.possiblePatterns board
  return (moves, patterns)

/-- What there is in the position of a world. -/
def World.counts (w : World) : Except ExprError OpeningCounts := do
  let choices ← w.pieces.mapM (Piece.choices w.board)
  return ⟨w.pieces.length, (choices.flatMap (·.1)).length, (choices.flatMap (·.2)).length⟩

/-- How far a check gets. -/
inductive CheckResult
  /-- The types cannot be made. -/
  | refused (error : ConfigError)
  /-- The types can be made, but the opening position or its moves cannot. -/
  | stopped (content : ContentCounts) (error : MatchError)
  | passed (content : ContentCounts) (opening : OpeningCounts)

/-- What there is in the opening position of a match. -/
def MatchConfig.openingCounts (config : MatchConfig) : Except MatchError OpeningCounts := do
  let w ← (World.setup config).mapError .config
  w.counts.mapError .expr

/-- Checks a match. -/
def MatchConfig.check (config : MatchConfig) : CheckResult :=
  match Registry.ofConfig config with
  | .error e => .refused e
  | .ok registry =>
    match config.openingCounts with
    | .error e => .stopped (.ofRegistry registry) e
    | .ok opening => .passed (.ofRegistry registry) opening

end Waypoints
