import Waypoints.Content.Kinds
/-!
# The registry of a match

A `Registry` holds the move, pattern and piece types of a match by name. A type is registered from
its description; a piece type is made of the move and pattern types that are registered then.
-/

set_option autoImplicit false
set_option relaxedAutoImplicit false

namespace Waypoints

/-- The types of a match, by name. -/
structure Registry where
  moves : NameMap MoveType
  patterns : NameMap PatternType
  pieces : NameMap PieceType

namespace Registry

/-- The registry without types. -/
def empty : Registry :=
  ⟨.empty, .empty, .empty⟩

/-- Adds a move type, in place of any other of its name. -/
def addMove (r : Registry) (m : MoveType) : Registry :=
  { r with moves := r.moves.insert m.name m }

/-- Adds a pattern type, in place of any other of its name. -/
def addPattern (r : Registry) (p : PatternType) : Registry :=
  { r with patterns := r.patterns.insert p.name p }

/-- Adds a piece type, in place of any other of its name. -/
def addPiece (r : Registry) (p : PieceType) : Registry :=
  { r with pieces := r.pieces.insert p.name p }

/-- The piece type of a name, which has to be registered. -/
def requirePiece (r : Registry) (name : String) : Except ConfigError PieceType :=
  match r.pieces.find? name with
  | some p => .ok p
  | none => .error (.unknownPieceType name)

/-- The move type of a name that the type `piece` lists. -/
def resolveMove (r : Registry) (piece name : String) : Except ConfigError MoveType :=
  match r.moves.find? name with
  | some m => .ok m
  | none => .error (.unknownMoveType piece name)

/-- The pattern type of a name that the type `piece` lists. -/
def resolvePattern (r : Registry) (piece name : String) : Except ConfigError PatternType :=
  match r.patterns.find? name with
  | some p => .ok p
  | none => .error (.unknownPatternType piece name)

/-- The piece type that a name and its description give among the types registered. -/
def pieceOfParams (r : Registry) (name : String) (params : PieceParams) :
    Except ConfigError PieceType := do
  let moves ← params.moves.mapM (r.resolveMove name)
  let patterns ← params.patterns.mapM (r.resolvePattern name)
  PieceType.make name params.radius moves patterns params.cooldown

/-- Registers a move type from its description. -/
def registerMove (r : Registry) (name : String) (params : MoveParams) :
    Except ConfigError (Registry × MoveType) := do
  let m ← MoveType.ofParams name params
  return (r.addMove m, m)

/-- Registers a pattern type from its description. -/
def registerPattern (r : Registry) (name : String) (params : PatternParams) :
    Except ConfigError (Registry × PatternType) := do
  let p ← PatternType.ofParams name params
  return (r.addPattern p, p)

/-- Registers a piece type from its description. -/
def registerPiece (r : Registry) (name : String) (params : PieceParams) :
    Except ConfigError (Registry × PieceType) := do
  let p ← r.pieceOfParams name params
  return (r.addPiece p, p)

/-- Registers every type that a match describes: moves, then patterns, then pieces, each in the
order of their names. -/
def ofConfig (config : MatchConfig) : Except ConfigError Registry := do
  let r ← config.moves.entries.foldlM
    (fun r (name, params) ↦ (·.1) <$> r.registerMove name params) empty
  let r ← config.patterns.entries.foldlM
    (fun r (name, params) ↦ (·.1) <$> r.registerPattern name params) r
  config.pieces.entries.foldlM
    (fun r (name, params) ↦ (·.1) <$> r.registerPiece name params) r

end Registry

end Waypoints
