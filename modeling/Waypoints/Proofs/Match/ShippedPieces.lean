import Waypoints.Content.Shipped
import Waypoints.Match.World
import Waypoints.Proofs.Agreement
import Waypoints.Proofs.Evaluation.Displacement
import Waypoints.Proofs.Match.Frames
/-!
# The moves of the shipped pieces

The shipped pieces move by formulas that only displace (`Formula.displacements?`), so that what such
a piece may do anywhere is read off from the origin of its player's frame: its waypoints are the
world images of its displacements from where it stands (`Piece.possibleMoves_of_displacements?`). At
the origin the formulas of the match are evaluated once and for all (`Shipped.exists_setup`); so
every shipped piece has its moves at every position whatever (`Shipped.moves_everywhere`).
-/

set_option autoImplicit false
set_option relaxedAutoImplicit false

namespace Waypoints

open Number (ofInt)

/-- A frame shows points at their world images. -/
theorem Frame.forall₂_shows_map {α : Type} (f : Frame) (point : α → Point) (as : List α) :
    List.Forall₂ (fun a ↦ f.Shows (point a)) as (as.map fun a ↦ f.toWorld (point a)) :=
  List.forall₂_map_right_iff.2 (List.forall₂_same.2 fun _ _ ↦ shows_iff.2 rfl)

/-! ### Types whose formulas only displace -/

/-- What the formulas of types give by a reading, type by type. -/
def collect? {α : Type} (read? : Formula → Option (List Path)) (formulas : α → List Formula)
    (types : List α) : Option (List (α × Path)) :=
  (types.mapM fun type ↦ ((formulas type).mapM read?).map fun rows ↦
    rows.flatten.map (type, ·)).map List.flatten

/-- The displacements that a type of piece offers with its move types. -/
def PieceType.displacements? (kind : PieceType) (board : Board) :
    Option (List (MoveType × Path)) :=
  collect? (·.displacements? board false) MoveType.formulas kind.moves

/-- The waypoints that a type of piece has to go through, wherever it stands. -/
def PieceType.fixedPaths? (kind : PieceType) (board : Board) :
    Option (List (PatternType × Path)) :=
  collect? (·.fixedPaths? board true) PatternType.formulas kind.patterns

namespace Piece

variable {p : Piece} {side : Side} {board : Board} {anyOk : Bool}

/-- The world image of a point that is displaced from where the piece stands. -/
def reach (p : Piece) (d : Point) : Point :=
  p.frame.toWorld ⟨p.playerPosition.x + d.x, p.playerPosition.y + d.y⟩

theorem toWorld_eq_reach (hframe : p.frame = side.frame board) {d q : Point}
    (h : Point.Displaced p.playerPosition d q) : p.frame.toWorld q = p.reach d := by
  unfold reach
  rw [hframe]
  exact Frame.toWorld_eq_of_same side board h.1 h.2

theorem worldPaths_eq (f : Formula) : f.worldPaths p.frame p.position board anyOk =
    (f.relativePaths (.ofPlace p.playerPosition board anyOk)).map
      (·.map (·.map p.frame.toWorld)) :=
  rfl

theorem worldPaths_of_displacements? (hframe : p.frame = side.frame board) {f : Formula}
    {paths : List Path} (h : f.displacements? board anyOk = some paths) :
    f.worldPaths p.frame p.position board anyOk = .ok (paths.map (·.map p.reach)) := by
  obtain ⟨paths', hpaths', hdisplaced⟩ :=
    Formula.exists_relativePaths_of_displacements? h p.playerPosition
  have hworld : paths.map (·.map p.reach) = paths'.map (·.map p.frame.toWorld) :=
    hdisplaced.map_eq_map fun _ _ hpath ↦
      hpath.map_eq_map fun _ _ hdq ↦ (toWorld_eq_reach hframe hdq).symm
  rw [worldPaths_eq, hpaths']
  exact congrArg Except.ok hworld.symm

theorem worldPaths_of_fixedPaths? {f : Formula} {paths : List Path}
    (h : f.fixedPaths? board anyOk = some paths) :
    f.worldPaths p.frame p.position board anyOk = .ok (paths.map (·.map p.frame.toWorld)) := by
  rw [worldPaths_eq, Formula.relativePaths_of_fixedPaths? h]
  rfl

/-- What types offer a piece is what a reading of their formulas gives, put into the world. -/
theorem generation_of_collect? {α β : Type} {read? : Formula → Option (List Path)}
    {formulas : α → List Formula} {types : List α} {ways : List (α × Path)} {image : Point → Point}
    (hread : ∀ f paths, read? f = some paths →
      f.worldPaths p.frame p.position board anyOk = .ok (paths.map (·.map image)))
    (h : collect? read? formulas types = some ways) (make : α → Path → β) :
    (types.mapM (fun type ↦ (·.map (make type)) <$> p.paths board (formulas type) anyOk) >>=
      fun rows ↦ pure rows.flatten) =
      .ok (ways.map fun way ↦ make way.1 (way.2.map image)) := by
  have hpaths {formulas : List Formula} {rows : List (List Path)}
      (h : formulas.mapM read? = some rows) :
      p.paths board formulas anyOk = .ok (rows.flatten.map (·.map image)) := by
    have hrows : formulas.mapM (·.worldPaths p.frame p.position board anyOk) =
        .ok (rows.map (·.map (·.map image))) := by
      refine Except.mapM_eq_ok_iff.2 (List.forall₂_map_right_iff.2 ?_)
      exact (List.mapM_eq_some_iff.1 h).imp hread
    unfold paths Formula.allWorldPaths
    rw [hrows, List.map_flatten]
    rfl
  obtain ⟨rows, hrows, rfl⟩ := Option.map_eq_some_iff.1 h
  have hall : types.mapM (fun type ↦ (·.map (make type)) <$> p.paths board (formulas type) anyOk) =
      .ok (rows.map (·.map fun way ↦ make way.1 (way.2.map image))) := by
    refine Except.mapM_eq_ok_iff.2 (List.forall₂_map_right_iff.2 ?_)
    refine (List.mapM_eq_some_iff.1 hrows).imp fun type row hrow ↦ ?_
    obtain ⟨paths, hread, rfl⟩ := Option.map_eq_some_iff.1 hrow
    rw [hpaths hread, List.map_map]
    exact congrArg Except.ok (List.map_map ..)
  rw [hall, List.map_flatten]
  rfl

/-- A piece whose formulas only displace has its moves wherever it stands. -/
theorem possibleMoves_of_displacements? (hframe : p.frame = side.frame board)
    {ways : List (MoveType × Path)} (h : p.kind.displacements? board = some ways) :
    p.possibleMoves board = .ok (ways.map fun way ↦ ⟨way.1, p.id, way.2.map p.reach⟩) :=
  generation_of_collect? (fun _ _ ↦ worldPaths_of_displacements? hframe) h (Move.mk · p.id ·)

/-- A piece whose patterns do not use the coordinates has the same patterns wherever it stands. -/
theorem possiblePatterns_of_fixedPaths? {ways : List (PatternType × Path)}
    (h : p.kind.fixedPaths? board = some ways) : p.possiblePatterns board =
      .ok (ways.map fun way ↦ .fresh way.1 p.id (way.2.map p.frame.toWorld)) :=
  generation_of_collect? (fun _ _ ↦ worldPaths_of_fixedPaths?) h (Pattern.fresh · p.id ·)

end Piece

/-! ### The shipped pieces -/

namespace Shipped

/-- The men of the shipped set. -/
inductive Man
  | pawn
  | knight
  | bishop
  | rook
  | queen
  | king
  deriving DecidableEq

/-- A way for a man to move. Its waypoints are seen from where the man stands. -/
structure Way where
  name : String
  mode : MoveMode
  offsets : List (Int × Int)

namespace Way

/-- A jump to one waypoint. -/
def leap (name : String) (offset : Int × Int) : Way :=
  ⟨name, .jump, [offset]⟩

/-- A slide in one direction, which would cross the whole board. -/
def ray (name : String) (direction : Int × Int) : Way :=
  ⟨name, .slide, [1, 2, 3, 4, 5, 6, 7].map fun i ↦ (direction.1 * i, direction.2 * i)⟩

/-- The waypoints. -/
def path (way : Way) : Path :=
  way.offsets.map fun offset ↦ ⟨ofInt offset.1, ofInt offset.2⟩

/-- A move takes a way from where the piece is seen to stand: its waypoints are where the frame of
the piece shows the points at the offsets from there. -/
structure Taken (way : Way) (p : Piece) (place : Point) (m : Move) : Prop where
  name_eq : m.kind.name = way.name
  mode_eq : m.mode = way.mode
  piece_eq : m.piece = p.id
  path : List.Forall₂ (fun offset waypoint ↦
    p.frame.Shows ⟨place.x + ofInt offset.1, place.y + ofInt offset.2⟩ waypoint) way.offsets m.path

theorem taken_of_eq {way : Way} {p : Piece} {m : Move}
    (h : (way.name, way.mode, p.id, way.path.map p.reach) =
      (m.kind.name, m.mode, m.piece, m.path)) : way.Taken p p.playerPosition m := by
  simp only [Prod.mk.injEq] at h
  obtain ⟨hname, hmode, hpiece, hpath⟩ := h
  refine ⟨hname.symm, hmode.symm, hpiece.symm, ?_⟩
  rw [← hpath, path, List.map_map]
  exact p.frame.forall₂_shows_map _ way.offsets

end Way

namespace Man

/-- The name of a man. -/
def name : Man → String
  | pawn => "pawn"
  | knight => "knight"
  | bishop => "bishop"
  | rook => "rook"
  | queen => "queen"
  | king => "king"

/-- All men. -/
def all : List Man :=
  [pawn, knight, bishop, rook, queen, king]

theorem mem_all (man : Man) : man ∈ all := by
  cases man <;> decide

/-- The slides along the axes. -/
def orthogonalRays : List Way :=
  [(-1, 0), (0, -1), (0, 1), (1, 0)].map (.ray "orthogonal_ray")

/-- The slides along the diagonals. -/
def diagonalRays : List Way :=
  [(-1, -1), (-1, 1), (1, -1), (1, 1)].map (.ray "diagonal_ray")

/-- The ways for a man to move, in order. -/
def ways : Man → List Way
  | pawn => [.leap "pawn_step" (0, 1), ⟨"pawn_advance", .slide, [(0, 1), (0, 2)]⟩,
      .leap "pawn_capture" (-1, 1), .leap "pawn_capture" (1, 1)]
  | knight => [(-2, -1), (-2, 1), (-1, -2), (-1, 2), (1, -2), (1, 2), (2, -1), (2, 1)].map
      (.leap "knight_leap")
  | bishop => diagonalRays
  | rook => orthogonalRays
  | queen => orthogonalRays ++ diagonalRays
  | king => [(-1, -1), (-1, 0), (-1, 1), (0, -1), (0, 1), (1, -1), (1, 0), (1, 1)].map
      (.leap "king_step")

/-- How the moves of a man travel and how many waypoints they have, in order. -/
def outline : Man → List (MoveMode × Nat)
  | pawn => [(.jump, 1), (.slide, 2), (.jump, 1), (.jump, 1)]
  | knight | king => List.replicate 8 (.jump, 1)
  | bishop | rook => List.replicate 4 (.slide, 7)
  | queen => List.replicate 8 (.slide, 7)

/-- The patterns of a man, as its player sees them. -/
def goals : Man → List (String × Path)
  | pawn => [("promote", [⟨wildcard, 7⟩])]
  | _ => []

/-- The type gives the man its ways to move and its patterns. -/
def Fits (man : Man) (kind : PieceType) (board : Board) : Prop :=
  (kind.displacements? board).map (·.map fun way ↦ (way.1.name, way.1.mode, way.2)) =
      some (man.ways.map fun way ↦ (way.name, way.mode, way.path)) ∧
    (kind.fixedPaths? board).map (·.map fun way ↦ (way.1.name, way.2)) = some man.goals

instance (man : Man) (kind : PieceType) (board : Board) : Decidable (man.Fits kind board) :=
  inferInstanceAs (Decidable (_ ∧ _))

namespace Fits

variable {man : Man} {p : Piece} {side : Side} {board : Board}

theorem possibleMoves (h : man.Fits p.kind board) (hframe : p.frame = side.frame board) :
    ∃ moves, p.possibleMoves board = .ok moves ∧
      List.Forall₂ (fun way m ↦ (way.name, way.mode, p.id, way.path.map p.reach) =
        (m.kind.name, m.mode, m.piece, m.path)) man.ways moves := by
  obtain ⟨ways, hread, hways⟩ := Option.map_eq_some_iff.1 h.1
  refine ⟨_, Piece.possibleMoves_of_displacements? hframe hread, List.forall₂_of_map_eq_map ?_⟩
  have hworld := congrArg (List.map fun way ↦ (way.1, way.2.1, p.id, way.2.2.map p.reach)) hways
  rw [List.map_map, List.map_map] at hworld
  rw [List.map_map]
  exact hworld.symm

theorem possiblePatterns (h : man.Fits p.kind board) :
    ∃ patterns, p.possiblePatterns board = .ok patterns ∧
      List.Forall₂ (fun goal pattern ↦ (goal.1, p.id, goal.2.map p.frame.toWorld) =
        (pattern.kind.name, pattern.piece, pattern.path)) man.goals patterns := by
  obtain ⟨ways, hread, hways⟩ := Option.map_eq_some_iff.1 h.2
  refine ⟨_, Piece.possiblePatterns_of_fixedPaths? hread, List.forall₂_of_map_eq_map ?_⟩
  rw [← hways, List.map_map, List.map_map]
  rfl

end Fits

theorem outline_eq (man : Man) :
    man.outline = man.ways.map fun way ↦ (way.mode, way.offsets.length) := by
  cases man <;> rfl

end Man

/-- At the origin all formulas of the shipped pieces are evaluated, once and for all. -/
theorem exists_setup : ∃ w, World.setup config = .ok w ∧
    w.board.width = 8 ∧ w.board.height = 8 ∧
    w.registry.pieces.names = ["bishop", "king", "knight", "pawn", "queen", "rook"] ∧
    ∀ man ∈ Man.all, ∃ kind ∈ w.registry.pieces.find? man.name, man.Fits kind w.board := by
  decide +kernel

/-- On its board of eight by eight, the shipped match offers every man its ways of moving and its
patterns, whichever side it is on and wherever it stands. The ways start at the place where the
player sees the man; the waypoints of the patterns do not depend on it. -/
theorem moves_everywhere : ∃ w, World.setup config = .ok w ∧
    w.board.width = 8 ∧ w.board.height = 8 ∧
    w.registry.pieces.names = ["bishop", "king", "knight", "pawn", "queen", "rook"] ∧
    ∀ man : Man, ∃ kind, w.registry.pieces.find? man.name = some kind ∧
      ∀ (side : Side) (p : Piece) (place : Point), p.kind = kind → side.Sits w.board p.frame →
        p.frame.Sees p.position place →
        (∃ moves, p.possibleMoves w.board = .ok moves ∧
          moves.map (fun m ↦ (m.mode, m.path.length)) = man.outline ∧
          List.Forall₂ (fun way m ↦ way.Taken p place m) man.ways moves) ∧
        ∃ patterns, p.possiblePatterns w.board = .ok patterns ∧
          List.Forall₂ (fun goal pattern ↦ pattern.kind.name = goal.1 ∧ pattern.piece = p.id ∧
            List.Forall₂ p.frame.Shows goal.2 pattern.path) man.goals patterns := by
  obtain ⟨w, hsetup, hwidth, hheight, hnames, hmen⟩ := exists_setup
  refine ⟨w, hsetup, hwidth, hheight, hnames, fun man ↦ ?_⟩
  obtain ⟨kind, hkind, hfits⟩ := hmen man man.mem_all
  refine ⟨kind, hkind, ?_⟩
  rintro side p place rfl hsits hsees
  obtain rfl : place = p.playerPosition := Frame.sees_iff.1 hsees
  obtain ⟨moves, hmoves, hways⟩ := hfits.possibleMoves (Side.sits_iff.1 hsits)
  obtain ⟨patterns, hpatterns, hgoals⟩ := hfits.possiblePatterns
  refine ⟨⟨moves, hmoves, ?_, ?_⟩, patterns, hpatterns, ?_⟩
  · rw [man.outline_eq]
    refine (hways.map_eq_map fun way m h ↦ ?_).symm
    have htaken := Way.taken_of_eq h
    rw [htaken.mode_eq, htaken.path.length_eq]
  · exact hways.imp fun _ _ ↦ Way.taken_of_eq
  · refine hgoals.imp fun goal pattern h ↦ ?_
    simp only [Prod.mk.injEq] at h
    obtain ⟨hname, hpiece, hpath⟩ := h
    refine ⟨hname.symm, hpiece.symm, ?_⟩
    rw [← hpath]
    exact p.frame.forall₂_shows_map id goal.2

/-- A knight of the second side that stands at an infinite and a wildcard coordinate has its eight
leaps. -/
theorem moves_everywhere_knight : ∃ w kind moves, World.setup config = .ok w ∧
    w.registry.pieces.find? "knight" = some kind ∧
    (Piece.fresh ⟨.two, 3⟩ (Side.two.frame w.board) kind ⟨1 / 0, wildcard⟩).possibleMoves w.board =
      .ok moves ∧
    moves.map (fun m ↦ (m.mode, m.path.length)) = List.replicate 8 (.jump, 1) := by
  obtain ⟨w, hsetup, -, -, -, hmen⟩ := moves_everywhere
  obtain ⟨kind, hkind, hpieces⟩ := hmen .knight
  have hsits : Side.two.Sits w.board (Side.two.frame w.board) := Side.sits_iff.2 rfl
  obtain ⟨⟨moves, hmoves, houtline, -⟩, -⟩ := hpieces .two
    (.fresh ⟨.two, 3⟩ (Side.two.frame w.board) kind ⟨1 / 0, wildcard⟩) _ rfl hsits
    (Frame.sees_iff.2 rfl)
  exact ⟨w, kind, moves, hsetup, hkind, hmoves, houtline⟩

end Shipped

end Waypoints
