import Waypoints.Proofs.Content.Registry
import Waypoints.Proofs.Match.Setup
/-!
# What setting up a match checks

`World.setup` fails with the first of `MatchConfig.setupFaults`: an empty board, what building the
registry fails with, and placements of unknown types. Without a fault it gives the one world that
opens the match (`setup_exact`): both players in the frames of their sides, each with one fresh
piece for each placement, in order and numbered from zero.
-/

set_option autoImplicit false
set_option relaxedAutoImplicit false

namespace Waypoints

/-! ### Faults -/

/-- What is wrong with the extent of a board. -/
def Extent.faults (extent : Extent) : List ConfigError :=
  faultUnless (extent.width ≠ 0 ∧ extent.height ≠ 0) (.invalidBoard extent.width extent.height)

/-- The placements whose piece types a registry does not have. -/
def unknownPlacements (r : Registry) (placements : List Placement) : List ConfigError :=
  placements.flatMap fun placement ↦
    faultUnless (placement.name ∈ r.pieces.names) (.unknownPieceType placement.name)

/-- What is wrong with a match: its board, else what building its registry fails with, else the
placements of unknown types. -/
def MatchConfig.setupFaults (config : MatchConfig) : List ConfigError :=
  config.board.faults ++
  match Registry.ofConfig config with
  | .error e => [e]
  | .ok r => unknownPlacements r config.setup

theorem unknownPlacements_eq_nil {r : Registry} {placements : List Placement} :
    unknownPlacements r placements = [] ↔
      ∀ placement ∈ placements, placement.name ∈ r.pieces.names := by
  rw [unknownPlacements, List.flatMap_eq_nil_iff]
  exact forall₂_congr fun _ _ ↦ faultUnless_eq_nil

/-- A match without faults has a board, a registry and only placements of registered types. -/
theorem MatchConfig.setupFaults_eq_nil (config : MatchConfig) : config.setupFaults = [] ↔
    config.board.width ≠ 0 ∧ config.board.height ≠ 0 ∧
      ∃ r, Registry.ofConfig config = .ok r ∧
        ∀ placement ∈ config.setup, placement.name ∈ r.pieces.names := by
  rw [setupFaults, List.append_eq_nil_iff, Extent.faults, faultUnless_eq_nil, and_assoc]
  refine and_congr_right fun _ ↦ and_congr_right fun _ ↦ ?_
  cases Registry.ofConfig config with
  | error e =>
    constructor
    · exact fun h ↦ nomatch h
    · rintro ⟨r, h, -⟩
      cases h
  | ok r =>
    constructor
    · exact fun h ↦ ⟨r, rfl, unknownPlacements_eq_nil.1 h⟩
    · rintro ⟨r', h, hknown⟩
      cases h
      exact unknownPlacements_eq_nil.2 hknown

/-! ### Openings -/

/-- The piece of a numbered placement: fresh, of the type and in the frame of its side, and where
the frame shows the placement. -/
structure Piece.Opens (r : Registry) (frame : Frame) (side : Side) (placement : Placement × Nat)
    (p : Piece) : Prop where
  id_eq : p.id = ⟨side, UInt32.ofNat placement.2⟩
  frame_eq : p.frame = frame
  kind_eq : r.pieces.find? placement.1.name = some p.kind
  position : frame.Shows placement.1.place p.position
  currentMove_eq : p.currentMove = none
  currentPattern_eq : p.currentPattern = none

/-- The player of a side with a piece for each placement, in order, and no others. -/
structure Player.Opens (r : Registry) (board : Board) (placements : List Placement) (side : Side)
    (player : Player) : Prop where
  side_eq : player.side = side
  sits : side.Sits board player.frame
  pieces : List.Forall₂ (Piece.Opens r player.frame side) placements.zipIdx player.pieces
  nextIndex_eq : player.nextIndex = UInt32.ofNat placements.length

/-- The world of a match as it opens: its board, its registry, and players one and two. -/
structure World.Opens (config : MatchConfig) (w : World) : Prop where
  width_eq : w.board.width = config.board.width
  height_eq : w.board.height = config.board.height
  registry_eq : Registry.ofConfig config = .ok w.registry
  players : List.Forall₂ (Player.Opens w.registry w.board config.setup) [.one, .two] w.players

/-! ### Placing pieces -/

theorem nextIndex_gain (p : Player) (arrivals : List (PieceType × Point)) :
    (p.gain arrivals).1.nextIndex = p.nextIndex + UInt32.ofNat arrivals.length := by
  induction arrivals generalizing p with
  | nil => exact (UInt32.add_zero _).symm
  | cons arrival rest ih =>
    refine (ih (p.spawn arrival.1 arrival.2).1).trans ?_
    change p.nextIndex + 1 + _ = _
    rw [List.length_cons, UInt32.ofNat_add, UInt32.add_comm (UInt32.ofNat _), UInt32.add_assoc]
    rfl

/-- The type and the position of a placement. -/
def Arrives (r : Registry) (frame : Frame) (placement : Placement) (arrival : PieceType × Point) :
    Prop :=
  r.pieces.find? placement.name = some arrival.1 ∧ arrival.2 = frame.toWorld placement.place

section Placing

variable {r : Registry} {board : Board} {side : Side} {placements : List Placement}
  {arrivals : List (PieceType × Point)}

/-- Arrivals at the places of placements become the pieces of the placements. -/
theorem opens_numbered {frame : Frame} (h : List.Forall₂ (Arrives r frame) placements arrivals)
    (n : Nat) : List.Forall₂ (Piece.Opens r frame side) (placements.zipIdx n)
      (numbered side frame (UInt32.ofNat n) arrivals) := by
  induction h generalizing n with
  | nil => exact .nil
  | cons hplacement _ ih =>
    refine .cons ⟨rfl, rfl, hplacement.1, Frame.shows_iff.2 hplacement.2, rfl, rfl⟩ ?_
    have hnext : UInt32.ofNat n + 1 = UInt32.ofNat (n + 1) := (UInt32.ofNat_add n 1).symm
    rw [hnext]
    exact ih (n + 1)

theorem reports_locate (p : Player) (placement : Placement) :
    (p.locate r placement).Reports
      (faultUnless (placement.name ∈ r.pieces.names) (.unknownPieceType placement.name))
      (Arrives r p.frame placement) := by
  have hkind : (r.requirePiece placement.name).Reports
      (faultUnless (placement.name ∈ r.pieces.names) (.unknownPieceType placement.name))
      fun kind ↦ r.pieces.find? placement.name = some kind :=
    NameMap.reports_resolve rfl (fun kind h ↦ by rw [Registry.requirePiece, h])
      fun h ↦ by rw [Registry.requirePiece, h]
  rw [← List.append_nil (faultUnless ..)]
  exact hkind.bind fun kind hkind ↦ Except.reports_ok ⟨hkind, rfl⟩

theorem reports_locateAll (p : Player) (placements : List Placement) :
    (placements.mapM (p.locate r)).Reports (unknownPlacements r placements)
      (List.Forall₂ (Arrives r p.frame) placements) :=
  Except.Reports.mapM fun placement _ ↦ reports_locate p placement

/-- A player without pieces who is given arrivals. -/
theorem opens_gain (h : List.Forall₂ (Arrives r (side.frame board)) placements arrivals) :
    ((Player.fresh side (side.frame board)).gain arrivals).1.Opens r board placements side := by
  obtain ⟨hside, hframe, hpieces⟩ := pieces_gain (.fresh side (side.frame board)) arrivals
  refine ⟨hside, Side.sits_iff.2 hframe, ?_, ?_⟩
  · rw [hpieces, hframe]
    exact opens_numbered h 0
  · rw [nextIndex_gain, h.length_eq]
    exact UInt32.zero_add _

/-- A player without pieces who places some. -/
theorem reports_place (placements : List Placement) :
    ((·.1) <$> (Player.fresh side (side.frame board)).place r placements).Reports
      (unknownPlacements r placements) (Player.Opens r board placements side) := by
  have hplace : ((Player.fresh side (side.frame board)).place r placements).Reports
      (unknownPlacements r placements ++ []) (·.1.Opens r board placements side) :=
    (reports_locateAll _ placements).bind fun arrivals h ↦ Except.reports_ok (opens_gain h)
  rw [List.append_nil] at hplace
  exact hplace.map fun _ h ↦ h

end Placing

/-! ### The whole setup -/

theorem reports_toBoard (extent : Extent) : extent.toBoard.Reports extent.faults
    fun board ↦ board.width = extent.width ∧ board.height = extent.height := by
  unfold Extent.toBoard Board.ofExtent? Extent.faults faultUnless
  by_cases h : extent.width ≠ 0 ∧ extent.height ≠ 0
  · rw [dif_pos h, if_pos h]
    exact Except.reports_ok ⟨rfl, rfl⟩
  · rw [dif_neg h, if_neg h]
    exact Except.reports_error _

/-- Both players look for the same types, so that the second finds nothing that the first does
not. -/
theorem reports_placeAll (board : Board) (r : Registry) (placements : List Placement) :
    (World.placeAll ⟨board, r, [.fresh .one (Side.one.frame board), .fresh .two
      (Side.two.frame board)]⟩ placements).Reports (unknownPlacements r placements)
      fun w ↦ w.board = board ∧ w.registry = r ∧
        List.Forall₂ (Player.Opens r board placements) [.one, .two] w.players := by
  have hplayers : ([Side.one, .two].mapM fun side ↦
      (·.1) <$> (Player.fresh side (side.frame board)).place r placements).Reports
      (unknownPlacements r placements ++ (unknownPlacements r placements ++ []))
      (List.Forall₂ (Player.Opens r board placements) [.one, .two]) :=
    Except.Reports.mapM fun side _ ↦ reports_place placements
  unfold World.placeAll
  refine (hplayers.bind fun players h ↦ Except.reports_ok ⟨rfl, rfl, h⟩).congr ?_
  rw [List.append_nil, List.append_nil, List.head?_append, Option.or_self]

theorem reports_setup (config : MatchConfig) :
    (World.setup config).Reports config.setupFaults (World.Opens config) := by
  refine (reports_toBoard config.board).bind fun board ⟨hwidth, hheight⟩ ↦ ?_
  cases hregistry : Registry.ofConfig config with
  | error e => exact Except.reports_error e
  | ok r =>
    refine (reports_placeAll board r config.setup).imp ?_
    rintro w ⟨rfl, rfl, hplayers⟩
    exact ⟨hwidth, hheight, hregistry, hplayers⟩

/-! ### The one opening of a match -/

theorem Piece.rightUnique_opens (r : Registry) (frame : Frame) (side : Side) :
    Relator.RightUnique (Piece.Opens r frame side) := by
  rintro placement ⟨id, frame, kind, position, move, pattern⟩
    ⟨id', frame', kind', position', move', pattern'⟩ h h'
  obtain rfl : id = id' := h.id_eq.trans h'.id_eq.symm
  obtain rfl : frame = frame' := h.frame_eq.trans h'.frame_eq.symm
  obtain rfl : kind = kind' := Option.some.inj (h.kind_eq.symm.trans h'.kind_eq)
  obtain rfl : position = position' :=
    (Frame.shows_iff.1 h.position).trans (Frame.shows_iff.1 h'.position).symm
  obtain rfl : move = move' := h.currentMove_eq.trans h'.currentMove_eq.symm
  obtain rfl : pattern = pattern' := h.currentPattern_eq.trans h'.currentPattern_eq.symm
  rfl

theorem Player.rightUnique_opens (r : Registry) (board : Board) (placements : List Placement) :
    Relator.RightUnique (Player.Opens r board placements) := by
  rintro side ⟨side', frame, pieces, nextIndex⟩ ⟨side'', frame', pieces', nextIndex'⟩ h h'
  obtain rfl : side' = side'' := h.side_eq.trans h'.side_eq.symm
  obtain rfl : frame = frame' := (Side.sits_iff.1 h.sits).trans (Side.sits_iff.1 h'.sits).symm
  obtain rfl : pieces = pieces' :=
    List.right_unique_forall₂' (Piece.rightUnique_opens ..) h.pieces h'.pieces
  obtain rfl : nextIndex = nextIndex' := h.nextIndex_eq.trans h'.nextIndex_eq.symm
  rfl

namespace World.Opens

variable {config : MatchConfig} {w w' : World}

/-- No match opens in two worlds. -/
theorem unique (h : w.Opens config) (h' : w'.Opens config) : w = w' := by
  obtain ⟨⟨width, height, _, _⟩, registry, players⟩ := w
  obtain ⟨⟨width', height', _, _⟩, registry', players'⟩ := w'
  obtain rfl : width = width' := h.width_eq.trans h'.width_eq.symm
  obtain rfl : height = height' := h.height_eq.trans h'.height_eq.symm
  obtain rfl : registry = registry' := Except.ok.inj (h.registry_eq.symm.trans h'.registry_eq)
  obtain rfl : players = players' :=
    List.right_unique_forall₂' (Player.rightUnique_opens ..) h.players h'.players
  rfl

/-- Every piece is of the type of a placement. -/
theorem exists_placement (h : w.Opens config) {p : Piece} (hp : p ∈ w.pieces) :
    ∃ placement ∈ config.setup, w.registry.pieces.find? placement.name = some p.kind := by
  obtain ⟨player, hplayer, hp⟩ := List.mem_flatMap.1 hp
  obtain ⟨side, -, hopens⟩ := h.players.exists_of_mem_right hplayer
  obtain ⟨placement, hplacement, hpiece⟩ := hopens.pieces.exists_of_mem_right hp
  exact ⟨placement.1, List.fst_mem_of_mem_zipIdx hplacement, hpiece.kind_eq⟩

/-- Every placement has a piece of its type. -/
theorem exists_piece (h : w.Opens config) {placement : Placement}
    (hplacement : placement ∈ config.setup) :
    ∃ p ∈ w.pieces, w.registry.pieces.find? placement.name = some p.kind := by
  obtain ⟨player, hmem, hplayer⟩ := h.players.flip.exists_of_mem_right (List.mem_cons_self ..)
  obtain ⟨n, hn⟩ := List.mem_iff_getElem?.1 hplacement
  have hnumbered : (placement, n) ∈ config.setup.zipIdx := List.mem_zipIdx_iff_getElem?.2 hn
  obtain ⟨p, hp, hpiece⟩ := hplayer.pieces.flip.exists_of_mem_right hnumbered
  exact ⟨p, List.mem_flatMap.2 ⟨player, hmem, hp⟩, hpiece.kind_eq⟩

/-- Only a match without faults has an opening. -/
theorem setupFaults_eq_nil (h : w.Opens config) : config.setupFaults = [] := by
  rw [MatchConfig.setupFaults_eq_nil, ← h.width_eq, ← h.height_eq]
  refine ⟨w.board.width_ne_zero, w.board.height_ne_zero, w.registry, h.registry_eq, ?_⟩
  intro placement hplacement
  obtain ⟨p, -, hp⟩ := h.exists_piece hplacement
  exact (w.registry.pieces.find?_isSome_iff _).1 (hp ▸ rfl)

end World.Opens

/-- Setting up a match is exact. It gives a world just if that is the opening of the match, and
fails with the first fault of the match just if it has any; it succeeds just if the board is not
empty, the registry can be built and every placement is of a registered type. -/
theorem setup_exact (config : MatchConfig) :
    (∀ w, World.setup config = .ok w ↔ w.Opens config) ∧
      (∀ e, World.setup config = .error e ↔ config.setupFaults.head? = some e) ∧
      ((∃ w, World.setup config = .ok w) ↔ config.board.width ≠ 0 ∧ config.board.height ≠ 0 ∧
        ∃ r, Registry.ofConfig config = .ok r ∧
          ∀ placement ∈ config.setup, placement.name ∈ r.pieces.names) := by
  have hreports := reports_setup config
  refine ⟨fun w ↦ ⟨fun h ↦ ?_, fun h ↦ ?_⟩, hreports.error_iff,
    hreports.exists_ok_iff.trans config.setupFaults_eq_nil⟩
  · rw [h] at hreports
    exact hreports.2
  · obtain ⟨w', hw'⟩ := hreports.exists_ok_iff.2 h.setupFaults_eq_nil
    rw [hw'] at hreports ⊢
    rw [h.unique hreports.2]

end Waypoints
