import Waypoints.Match.World
import Waypoints.Proofs.Agreement
/-!
# The opening position

What a world that `World.setup` accepts is made of. Both players see the board in the frames of
their sides and hold one piece for each placement, in order and numbered from zero
(`players_of_setup`); `pieces_of_setup` finds the pieces by their identifiers, `stands_of_piece`
traces each piece to its placement, and `exists_piece_of_placement` each placement to a piece.
`setup_ofFormula` accepts a match whose pieces move by any one formula.
-/

set_option autoImplicit false
set_option relaxedAutoImplicit false

namespace Waypoints

/-! ### Arrivals -/

/-- The pieces that arrivals become, numbered from an index on. -/
def numbered (side : Side) (frame : Frame) : UInt32 → List (PieceType × Point) → List Piece
  | _, [] => []
  | index, (kind, position) :: rest =>
    Piece.fresh ⟨side, index⟩ frame kind position :: numbered side frame (index + 1) rest

theorem pieces_gain (p : Player) (arrivals : List (PieceType × Point)) :
    (p.gain arrivals).1.side = p.side ∧ (p.gain arrivals).1.frame = p.frame ∧
      (p.gain arrivals).1.pieces = p.pieces ++ numbered p.side p.frame p.nextIndex arrivals := by
  induction arrivals generalizing p with
  | nil => exact ⟨rfl, rfl, (List.append_nil _).symm⟩
  | cons arrival rest ih =>
    obtain ⟨hside, hframe, hpieces⟩ := ih (p.spawn arrival.1 arrival.2).1
    refine ⟨hside, hframe, ?_⟩
    change ((p.spawn arrival.1 arrival.2).1.gain rest).1.pieces = _
    rw [hpieces]
    change (p.pieces ++ [_]) ++ _ = _
    rw [List.append_assoc]
    rfl

/-- Every piece among arrivals is the piece of an arrival. -/
theorem mem_numbered {side : Side} {frame : Frame} {index : UInt32}
    {arrivals : List (PieceType × Point)} {p : Piece} (h : p ∈ numbered side frame index arrivals) :
    ∃ arrival ∈ arrivals, ∃ number, p = .fresh ⟨side, number⟩ frame arrival.1 arrival.2 := by
  induction arrivals generalizing index with
  | nil => cases h
  | cons arrival rest ih =>
    rcases List.mem_cons.1 h with rfl | h
    · exact ⟨arrival, List.mem_cons_self, index, rfl⟩
    · obtain ⟨other, hother, number, rfl⟩ := ih h
      exact ⟨other, List.mem_cons_of_mem _ hother, number, rfl⟩

theorem mem_numbered_of_mem {side : Side} {frame : Frame} {arrivals : List (PieceType × Point)}
    {arrival : PieceType × Point} (h : arrival ∈ arrivals) (index : UInt32) :
    ∃ number, .fresh ⟨side, number⟩ frame arrival.1 arrival.2 ∈
      numbered side frame index arrivals := by
  induction arrivals generalizing index with
  | nil => cases h
  | cons other rest ih =>
    rcases List.mem_cons.1 h with rfl | h
    · exact ⟨index, List.mem_cons_self⟩
    · obtain ⟨number, hnumber⟩ := ih h (index + 1)
      exact ⟨number, List.mem_cons_of_mem _ hnumber⟩

/-- The identifier of the `n`-th arrival belongs to no earlier one, as long as the indices do not
start over. -/
theorem find?_numbered (side : Side) (frame : Frame) (index : UInt32)
    {arrivals : List (PieceType × Point)} {n : Nat} (hn : n < arrivals.length)
    (hlt : n < UInt32.size) :
    (numbered side frame index arrivals).find? (·.id == ⟨side, index + UInt32.ofNat n⟩) =
      some (.fresh ⟨side, index + UInt32.ofNat n⟩ frame arrivals[n].1 arrivals[n].2) := by
  induction arrivals generalizing index n with
  | nil => cases hn
  | cons arrival rest ih =>
    cases n with
    | zero =>
      have hindex : index + UInt32.ofNat 0 = index := UInt32.add_zero index
      rw [hindex]
      exact List.find?_cons_of_pos (beq_self_eq_true _)
    | succ n =>
      have hne : index ≠ index + UInt32.ofNat (n + 1) := by
        intro heq
        have hzero := (UInt32.add_right_inj index).1 ((UInt32.add_zero index).trans heq)
        have hmod : (n + 1) % UInt32.size = 0 := (congrArg UInt32.toNat hzero).symm
        rw [Nat.mod_eq_of_lt hlt] at hmod
        cases hmod
      have hnext : index + UInt32.ofNat (n + 1) = index + 1 + UInt32.ofNat n := by
        rw [UInt32.ofNat_add, UInt32.add_comm (UInt32.ofNat n), UInt32.add_assoc]
        rfl
      have hid : ((Piece.fresh ⟨side, index⟩ frame arrival.1 arrival.2).id ==
          (⟨side, index + UInt32.ofNat (n + 1)⟩ : PieceId)) = false :=
        beq_eq_false_iff_ne.2 fun heq ↦ hne (PieceId.mk.inj heq).2
      simp only [numbered, List.find?_cons, hid]
      rw [hnext]
      exact ih (index + 1) (Nat.lt_of_succ_lt_succ hn) (Nat.lt_of_succ_lt hlt)

/-! ### Players -/

/-- The pieces of a side are those of the placements in its frame, in order. -/
structure Player.Placed (registry : Registry) (board : Board) (placements : List Placement)
    (side : Side) (player : Player) : Prop where
  side_eq : player.side = side
  pieces_eq : ∃ arrivals, player.pieces = numbered side (side.frame board) 0 arrivals ∧
    List.Forall₂ (fun placement arrival ↦ registry.requirePiece placement.name = .ok arrival.1 ∧
      arrival.2 = (side.frame board).toWorld placement.place) placements arrivals

section Players

variable {registry : Registry} {board : Board} {placements : List Placement} {side : Side}
  {player : Player}

/-- A player without pieces who places some. -/
theorem placed_of_place {player' : Player} {ids : List PieceId}
    (h : (Player.fresh side (side.frame board)).place registry placements = .ok (player', ids)) :
    player'.Placed registry board placements side := by
  obtain ⟨arrivals, harrivals, h⟩ := Except.exists_of_bind_eq_ok h
  have hgain : (Player.fresh side (side.frame board)).gain arrivals = (player', ids) :=
    Except.ok.inj h
  obtain ⟨hside, -, hpieces⟩ := pieces_gain (.fresh side (side.frame board)) arrivals
  rw [hgain] at hside hpieces
  refine ⟨hside, arrivals, hpieces, (Except.mapM_eq_ok_iff.1 harrivals).imp ?_⟩
  intro placement arrival hlocate
  obtain ⟨kind, hkind, hlocate⟩ := Except.exists_of_bind_eq_ok hlocate
  cases hlocate
  exact ⟨hkind, rfl⟩

end Players

/-! ### Worlds -/

/-- An accepted match has its board, its registry, and both players after they have placed their
pieces. -/
theorem exists_place_of_setup {config : MatchConfig} {w : World} (h : World.setup config = .ok w) :
    config.board.toBoard = .ok w.board ∧ Registry.ofConfig config = .ok w.registry ∧
      ∃ one two, w.players = [one.1, two.1] ∧
        (Player.fresh .one (Side.one.frame w.board)).place w.registry config.setup = .ok one ∧
        (Player.fresh .two (Side.two.frame w.board)).place w.registry config.setup = .ok two := by
  obtain ⟨board, hboard, h⟩ := Except.exists_of_bind_eq_ok h
  obtain ⟨registry, hregistry, h⟩ := Except.exists_of_bind_eq_ok h
  obtain ⟨⟨_, _⟩, hone, h⟩ := Except.exists_of_bind_eq_ok h
  obtain ⟨⟨_, _⟩, htwo, h⟩ := Except.exists_of_bind_eq_ok h
  cases hone
  cases htwo
  obtain ⟨players, hplayers, h⟩ := Except.exists_of_bind_eq_ok h
  cases h
  rcases Except.mapM_eq_ok_iff.1 hplayers with _ | ⟨hone, _ | ⟨htwo, _ | _⟩⟩
  obtain ⟨one, hone', heq⟩ := Except.exists_of_bind_eq_ok hone
  cases heq
  obtain ⟨two, htwo', heq⟩ := Except.exists_of_bind_eq_ok htwo
  cases heq
  exact ⟨hboard, hregistry, one, two, rfl, hone', htwo'⟩

/-- An accepted match has a board of its extent, and both players with their pieces placed. -/
theorem players_of_setup {config : MatchConfig} {w : World} (h : World.setup config = .ok w) :
    w.board.width = config.board.width ∧ w.board.height = config.board.height ∧
      ∃ one two, w.players = [one, two] ∧ one.Placed w.registry w.board config.setup .one ∧
        two.Placed w.registry w.board config.setup .two := by
  obtain ⟨hboard, -, one, two, hplayers, hone, htwo⟩ := exists_place_of_setup h
  have hextent : w.board.width = config.board.width ∧ w.board.height = config.board.height := by
    unfold Extent.toBoard Board.ofExtent? at hboard
    split at hboard
    · next hsome =>
      split at hsome
      · cases hsome
        rw [← Except.ok.inj hboard]
        exact ⟨rfl, rfl⟩
      · cases hsome
    · cases hboard
  exact ⟨hextent.1, hextent.2, _, _, hplayers, placed_of_place hone, placed_of_place htwo⟩

/-- The piece is of a type, and stands at a place in the frame of a side. -/
structure Piece.Stands (side : Side) (board : Board) (kind : PieceType) (place : Point)
    (p : Piece) : Prop where
  frame : p.frame = side.frame board
  kind : p.kind = kind
  position : p.position = (side.frame board).toWorld place

namespace Piece

variable {side : Side} {board : Board} {kind : PieceType} {place : Point} {p : Piece}

theorem stands_fresh (id : PieceId) :
    (fresh id (side.frame board) kind ((side.frame board).toWorld place)).Stands side board kind
      place :=
  ⟨rfl, rfl, rfl⟩

theorem Stands.withKind (h : p.Stands side board kind place) (kind' : PieceType) :
    { p with kind := kind' }.Stands side board kind' place :=
  ⟨h.frame, rfl, h.position⟩

/-- What a piece sees of its own place. -/
theorem Stands.playerPosition_eq (h : p.Stands side board kind place) :
    p.playerPosition = (side.frame board).toPlayer ((side.frame board).toWorld place) := by
  rw [playerPosition, h.frame, h.position]

end Piece

section Pieces

variable {config : MatchConfig} {w : World}

/-- The players of an accepted match by their sides. -/
theorem player_of_setup (h : World.setup config = .ok w) (side : Side) :
    ∃ player, w.player? side = some player ∧
      player.Placed w.registry w.board config.setup side := by
  obtain ⟨-, -, one, two, hplayers, hone, htwo⟩ := players_of_setup h
  unfold World.player?
  rw [hplayers]
  cases side with
  | one => exact ⟨one, List.find?_cons_of_pos (by rw [hone.side_eq]; rfl), hone⟩
  | two =>
    refine ⟨two, ?_, htwo⟩
    rw [List.find?_cons_of_neg (by rw [hone.side_eq]; decide)]
    exact List.find?_cons_of_pos (by rw [htwo.side_eq]; rfl)

/-- Each placement has a piece of its type on either side. -/
theorem pieces_of_setup (h : World.setup config = .ok w) {i : UInt32}
    (hi : i.toNat < config.setup.length) : ∃ kind, ∀ side, ∃ p, w.piece? ⟨side, i⟩ = some p ∧
      p.Stands side w.board kind config.setup[i.toNat].place := by
  have hfind (side : Side) : ∃ kind p,
      w.registry.requirePiece config.setup[i.toNat].name = .ok kind ∧
        w.piece? ⟨side, i⟩ = some p ∧ p.Stands side w.board kind config.setup[i.toNat].place := by
    obtain ⟨player, hplayer, -, arrivals, hpieces, harrivals⟩ := player_of_setup h side
    have hlength := harrivals.length_eq
    obtain ⟨hkind, hposition⟩ := harrivals.get hi (hlength ▸ hi)
    have hnumber := find?_numbered side (side.frame w.board) 0 (hlength ▸ hi) i.toNat_lt_size
    rw [UInt32.ofNat_toNat, UInt32.zero_add, ← hpieces] at hnumber
    have hpiece : w.piece? ⟨side, i⟩ = player.piece? ⟨side, i⟩ := by
      unfold World.piece?
      rw [hplayer]
      rfl
    exact ⟨_, _, hkind, hpiece.trans hnumber, rfl, rfl, hposition⟩
  obtain ⟨kind, -, hkind, -⟩ := hfind .one
  refine ⟨kind, fun side ↦ ?_⟩
  obtain ⟨kind', p, hkind', hpiece⟩ := hfind side
  rw [hkind] at hkind'
  cases hkind'
  exact ⟨p, hpiece⟩

/-- Every piece of an accepted match is at a placement. -/
theorem stands_of_piece (h : World.setup config = .ok w) {p : Piece} (hp : p ∈ w.pieces) :
    ∃ placement ∈ config.setup, ∃ side, p.Stands side w.board p.kind placement.place := by
  obtain ⟨-, -, one, two, hplayers, hone, htwo⟩ := players_of_setup h
  obtain ⟨player, hplayer, hp⟩ := List.mem_flatMap.1 hp
  have hplaced : ∃ side, player.Placed w.registry w.board config.setup side := by
    rw [hplayers, List.mem_cons, List.mem_singleton] at hplayer
    rcases hplayer with rfl | rfl
    · exact ⟨_, hone⟩
    · exact ⟨_, htwo⟩
  obtain ⟨side, -, arrivals, hpieces, harrivals⟩ := hplaced
  rw [hpieces] at hp
  obtain ⟨arrival, harrival, number, rfl⟩ := mem_numbered hp
  obtain ⟨k, hk, rfl⟩ := List.mem_iff_getElem.1 harrival
  have hk' : k < config.setup.length := harrivals.length_eq ▸ hk
  exact ⟨config.setup[k], List.getElem_mem hk', side, rfl, rfl, (harrivals.get hk' hk).2⟩

/-- Every placement of an accepted match has a piece of the first side. -/
theorem exists_piece_of_placement (h : World.setup config = .ok w) {placement : Placement}
    (hplacement : placement ∈ config.setup) :
    ∃ p ∈ w.pieces, p.Stands .one w.board p.kind placement.place := by
  obtain ⟨-, -, one, two, hplayers, ⟨-, arrivals, hpieces, harrivals⟩, -⟩ := players_of_setup h
  obtain ⟨k, hk, rfl⟩ := List.mem_iff_getElem.1 hplacement
  have hk' : k < arrivals.length := harrivals.length_eq ▸ hk
  obtain ⟨number, hmem⟩ := mem_numbered_of_mem (List.getElem_mem hk') 0
  refine ⟨_, List.mem_flatMap.2 ⟨one, ?_, hpieces ▸ hmem⟩, rfl, rfl, (harrivals.get hk hk').2⟩
  rw [hplayers]
  exact List.mem_cons_self

/-- A piece that is found is one of the pieces of the world. -/
theorem mem_pieces_of_piece? {id : PieceId} {p : Piece} (h : w.piece? id = some p) :
    p ∈ w.pieces := by
  obtain ⟨player, hplayer, hp⟩ := Option.bind_eq_some_iff.1 h
  exact List.mem_flatMap.2 ⟨player, List.mem_of_find?_eq_some hplayer, List.mem_of_find?_eq_some hp⟩

end Pieces

/-! ### Matches of one formula -/

section Formulas

variable (board : Board) (f : Formula) (place : Point)

/-- A formula is what its text reads as. -/
theorem Formula.parse_source : Formula.parse f.source = .ok f := by
  have hparsed := f.parsed
  unfold Formula.parse
  split
  · next expr heq =>
    rw [hparsed] at heq
    cases heq
    rfl
  · next error heq =>
    rw [hparsed] at heq
    cases heq

/-- A formula has the text that it was read from. -/
theorem Formula.source_of_parse {source : String} {f : Formula} (h : parse source = .ok f) :
    f.source = source := by
  unfold parse at h
  split at h
  · cases h
    rfl
  · cases h

theorem Formula.eq_of_source {f g : Formula} (h : f.source = g.source) : f = g := by
  have hparse := f.parse_source
  rw [h, g.parse_source] at hparse
  exact (Except.ok.inj hparse).symm

/-- A move type of one formula. -/
def MoveType.ofFormula : MoveType :=
  ⟨"move", .jump, [f]⟩

/-- A type of piece that moves by one formula. -/
def PieceType.ofFormula : PieceType where
  name := "piece"
  radius := 1
  moves := [.ofFormula f]
  patterns := []
  cooldown := 0
  radius_valid := by decide
  cooldown_valid := by decide

/-- The moves of a piece that moves by one formula. -/
theorem possibleMoves_ofFormula {p : Piece} {paths : List Path} (hkind : p.kind = .ofFormula f)
    (h : f.relativePaths (p.bindings board false) = .ok paths) : p.possibleMoves board =
      .ok ((p.frame.pathsToWorld paths).map (⟨.ofFormula f, p.id, ·⟩)) := by
  have hworld : f.worldPaths p.frame p.position board false =
      .ok (p.frame.pathsToWorld paths) := by
    unfold Formula.worldPaths
    change f.relativePaths (p.bindings board false) >>= _ = _
    rw [h]
    rfl
  have hpaths : p.paths board [f] false = .ok (p.frame.pathsToWorld paths) := by
    unfold Piece.paths Formula.allWorldPaths
    rw [List.mapM_cons, hworld]
    change Except.ok (_ ++ []) = _
    rw [List.append_nil]
  unfold Piece.possibleMoves
  rw [hkind]
  change [MoveType.ofFormula f].mapM (p.movesOf board) >>= _ = _
  unfold Piece.movesOf MoveType.ofFormula
  rw [List.mapM_cons, hpaths]
  change Except.ok (_ ++ []) = _
  rw [List.append_nil]

/-- A match with a piece on each side that moves by one formula. -/
def MatchConfig.ofFormula : MatchConfig where
  board := ⟨board.width, board.height⟩
  moves := NameMap.empty.insert "move" ⟨.jump, [f.source]⟩
  patterns := .empty
  pieces := NameMap.empty.insert "piece" ⟨1, ["move"], [], 0⟩
  setup := [⟨"piece", place⟩]

theorem toBoard_extent :
    Extent.toBoard ⟨board.width, board.height⟩ = .ok board := by
  unfold Extent.toBoard Board.ofExtent?
  rw [dif_pos ⟨board.width_ne_zero, board.height_ne_zero⟩]

theorem registerMove_ofFormula (r : Registry) : r.registerMove "move" ⟨.jump, [f.source]⟩ =
    .ok (r.addMove (.ofFormula f), .ofFormula f) := by
  have hread : readFormulas "move" [f.source] = .ok [f] := by
    unfold readFormulas
    rw [List.mapM_cons, f.parse_source]
    rfl
  unfold Registry.registerMove MoveType.ofParams
  rw [hread]
  rfl

theorem registerPiece_ofFormula {r : Registry} (h : r.moves.find? "move" = some (.ofFormula f)) :
    r.registerPiece "piece" ⟨1, ["move"], [], 0⟩ =
      .ok (r.addPiece (.ofFormula f), .ofFormula f) := by
  unfold Registry.registerPiece Registry.pieceOfParams Registry.resolveMove
  simp only [List.mapM_cons, h]
  rfl

theorem ofConfig_ofFormula : Registry.ofConfig (.ofFormula board f place) =
    .ok ((Registry.empty.addMove (.ofFormula f)).addPiece (.ofFormula f)) := by
  have hmoves : (MatchConfig.ofFormula board f place).moves.entries =
      [("move", ⟨.jump, [f.source]⟩)] := rfl
  have hpatterns : (MatchConfig.ofFormula board f place).patterns.entries = [] := rfl
  have hpieces : (MatchConfig.ofFormula board f place).pieces.entries =
      [("piece", ⟨1, ["move"], [], 0⟩)] := rfl
  unfold Registry.ofConfig
  rw [hmoves, hpatterns, hpieces]
  simp only [List.foldlM_cons, List.foldlM_nil, registerMove_ofFormula]
  change (Registry.registerPiece (Registry.empty.addMove (.ofFormula f)) "piece"
    ⟨1, ["move"], [], 0⟩).map (·.1) = _
  rw [registerPiece_ofFormula f rfl]
  rfl

/-- The match is accepted, and has its two pieces. -/
theorem setup_ofFormula : ∃ w, World.setup (.ofFormula board f place) = .ok w ∧ w.board = board ∧
    ∀ side : Side, ∃ p, w.piece? ⟨side, 0⟩ = some p ∧
      p.Stands side board (.ofFormula f) place := by
  unfold World.setup
  change ∃ w, (Extent.toBoard ⟨board.width, board.height⟩ >>= _) = _ ∧ _
  rw [toBoard_extent, ofConfig_ofFormula]
  refine ⟨_, rfl, rfl, ?_⟩
  rintro (_ | _)
  · exact ⟨_, rfl, Piece.stands_fresh _⟩
  · exact ⟨_, rfl, Piece.stands_fresh _⟩

end Formulas

end Waypoints
