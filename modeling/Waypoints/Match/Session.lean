import Waypoints.Match.World
/-!
# Sessions

A session puts a row of requests to a world. `World.answer` gives the world after a request and the
reply to it. A request that fails, or that asks for a player or a piece that is not there, leaves
the world as it was.
-/

set_option autoImplicit false
set_option relaxedAutoImplicit false

namespace Waypoints

/-- What may be asked of a world. -/
inductive Request
  | addPlayer (participant : Participant)
  | player (side : Side)
  | players
  | pieces
  | contains (place : Point)
  | spawn (side : Side) (kind : String) (position : Point)
  | gain (side : Side) (arrivals : List (String × Point))
  | place (side : Side) (placements : List Placement)
  /-- Removes a piece from the player of a side, which need not be its owner. -/
  | remove (id : PieceId) (side : Side)
  /-- Moves every piece of a player by the same step. -/
  | shift (side : Side) (step : Point)
  | moves (id : PieceId)
  | patterns (id : PieceId)
  | legal (id : PieceId) (rule : String)
  | piece (id : PieceId)
  | moveTo (id : PieceId) (position : Point)
  | bindings (id : PieceId) (anyOk : Bool)
  | eval (id : PieceId) (source : String) (anyOk : Bool)
  | makeMoves (id : PieceId) (kind : String)
  | makePatterns (id : PieceId) (kind : String)
  /-- Makes one of the possible moves the current one, or clears it. -/
  | setMove (id : PieceId) (index : Option Nat)
  /-- Makes one of the possible patterns the current one, or clears it. -/
  | setPattern (id : PieceId) (index : Option Nat)
  | advance (id : PieceId)

/-- What a world replies. -/
inductive Reply
  /-- There is no such player, piece or type. -/
  | nothing
  | config (error : ConfigError)
  | expr (error : ExprError)
  | noSuchIndex
  | player (player : Player)
  | players (players : List Player)
  | piece (piece : Piece)
  | pieces (pieces : List Piece)
  | flag (flag : Bool)
  | id (id : PieceId)
  | ids (ids : List PieceId)
  | points (points : List Point)
  | moves (moves : List Move)
  | patterns (patterns : List Pattern)
  | paths (paths : List Path)
  | bindings (bindings : Bindings)
  | replacedMove (old : Option Move) (piece : Piece)
  | replacedPattern (old : Option Pattern) (piece : Piece)
  /-- Whether the current pattern advanced, if there is one, and the piece after it. -/
  | advanced (advanced : Option Bool) (piece : Piece)

namespace Reply

/-- The reply of a computation that may fail for the configuration. -/
def ofConfig {α : Type} (reply : α → Reply) : Except ConfigError α → Reply
  | .ok a => reply a
  | .error e => config e

/-- The reply of a computation that may fail for an expression. -/
def ofExpr {α : Type} (reply : α → Reply) : Except ExprError α → Reply
  | .ok a => reply a
  | .error e => expr e

end Reply

/-- The candidate that an index picks: none without an index, an error if there is no such
candidate. -/
def pick {α : Type} (candidates : List α) : Option Nat → Option (Option α)
  | none => some none
  | some index => candidates[index]?.map some

namespace Piece

/-- Advances the current pattern, and says whether it advanced, if there is one. -/
def advance (p : Piece) : Piece × Option Bool :=
  match p.currentPattern with
  | none => (p, none)
  | some pattern =>
    let (pattern, advanced) := pattern.advance
    ({ p with currentPattern := some pattern }, some advanced)

/-- The piece at another position. -/
def moveTo (p : Piece) (position : Point) : Piece :=
  { p with position := position }

end Piece

namespace World

/-- Replaces the pieces of a player and replies. The player is found before anything is done. -/
def onPlayer (w : World) (side : Side) (change : Player → Player × Reply) : World × Reply :=
  match w.player? side with
  | none => (w, .nothing)
  | some player =>
    let (player, reply) := change player
    (w.updatePlayer side fun _ ↦ player, reply)

/-- Replaces a piece and replies. The piece is found before anything is done. -/
def onPiece (w : World) (id : PieceId) (change : Piece → Piece × Reply) : World × Reply :=
  match w.piece? id with
  | none => (w, .nothing)
  | some piece =>
    let (piece, reply) := change piece
    (w.updatePiece id fun _ ↦ piece, reply)

/-- The reply to a question about a piece. -/
def askPiece (w : World) (id : PieceId) (reply : Piece → Reply) : World × Reply :=
  match w.piece? id with
  | none => (w, .nothing)
  | some piece => (w, reply piece)

/-- Replaces the current move of a piece by one of its possible moves. -/
def replaceMove (board : Board) (index : Option Nat) (piece : Piece) : Piece × Reply :=
  match piece.possibleMoves board with
  | .error e => (piece, .expr e)
  | .ok moves =>
    match pick moves index with
    | none => (piece, .noSuchIndex)
    | some choice =>
      let changed := { piece with currentMove := choice }
      (changed, .replacedMove piece.currentMove changed)

/-- Replaces the current pattern of a piece by one of its possible patterns. -/
def replacePattern (board : Board) (index : Option Nat) (piece : Piece) : Piece × Reply :=
  match piece.possiblePatterns board with
  | .error e => (piece, .expr e)
  | .ok patterns =>
    match pick patterns index with
    | none => (piece, .noSuchIndex)
    | some choice =>
      let changed := { piece with currentPattern := choice }
      (changed, .replacedPattern piece.currentPattern changed)

/-- The reply to a formula evaluated for a piece. -/
def evalFor (board : Board) (source : String) (anyOk : Bool) (piece : Piece) : Reply :=
  .ofExpr .paths do
    let formula ← Formula.parse source
    formula.worldPaths piece.frame piece.position board anyOk

/-- The world after a request, and the reply. -/
def answer (w : World) : Request → World × Reply
  | .addPlayer participant =>
    match w.addPlayer participant with
    | .ok (w, player) => (w, .player player)
    | .error e => (w, .config e)
  | .player side => (w, (w.player? side).elim .nothing .player)
  | .players => (w, .players w.players)
  | .pieces => (w, .pieces w.pieces)
  | .contains place => (w, .flag (w.board.contains place))
  | .spawn side kind position =>
    match w.registry.requirePiece kind with
    | .error e => (w, .config e)
    | .ok kind => w.onPlayer side fun player ↦
      let (player, id) := player.spawn kind position
      (player, .id id)
  | .gain side arrivals =>
    match arrivals.mapM fun (kind, position) ↦
      return (← w.registry.requirePiece kind, position) with
    | .error e => (w, .config e)
    | .ok arrivals => w.onPlayer side fun player ↦
      let (player, ids) := player.gain arrivals
      (player, .ids ids)
  | .place side placements => w.onPlayer side fun player ↦
    match player.place w.registry placements with
    | .ok (player, ids) => (player, .ids ids)
    | .error e => (player, .config e)
  | .remove id side => w.onPlayer side fun player ↦
    match player.remove? id with
    | some (player, piece) => (player, .piece piece)
    | none => (player, .nothing)
  | .shift side step => w.onPlayer side fun player ↦
    let pieces := player.pieces.map fun piece ↦ piece.moveTo (piece.position + step)
    ({ player with pieces := pieces }, .points (pieces.map (·.position)))
  | .moves id => w.askPiece id fun piece ↦ .ofExpr .moves (piece.possibleMoves w.board)
  | .patterns id => w.askPiece id fun piece ↦ .ofExpr .patterns (piece.possiblePatterns w.board)
  | .legal id rule => w.askPiece id fun piece ↦
    .ofExpr .moves (piece.legalMoves w.board (.ofName w.board rule))
  | .piece id => w.askPiece id .piece
  | .moveTo id position => w.onPiece id fun piece ↦
    let piece := piece.moveTo position
    (piece, .piece piece)
  | .bindings id anyOk => w.askPiece id fun piece ↦ .bindings (piece.bindings w.board anyOk)
  | .eval id source anyOk => w.askPiece id (evalFor w.board source anyOk)
  | .makeMoves id kind =>
    match w.registry.moves.find? kind with
    | none => (w, .nothing)
    | some kind => w.askPiece id fun piece ↦ .ofExpr .moves (piece.movesOf w.board kind)
  | .makePatterns id kind =>
    match w.registry.patterns.find? kind with
    | none => (w, .nothing)
    | some kind => w.askPiece id fun piece ↦ .ofExpr .patterns (piece.patternsOf w.board kind)
  | .setMove id index => w.onPiece id (replaceMove w.board index)
  | .setPattern id index => w.onPiece id (replacePattern w.board index)
  | .advance id => w.onPiece id fun piece ↦
    let (piece, advanced) := piece.advance
    (piece, .advanced advanced piece)

/-- The world after a row of requests, and the replies. -/
def answerAll (w : World) : List Request → World × List Reply
  | [] => (w, [])
  | request :: requests =>
    let (w, reply) := w.answer request
    let (w, replies) := w.answerAll requests
    (w, reply :: replies)

end World

end Waypoints
