import Waypoints.Proofs.InPlace
import Waypoints.Proofs.Match.Opening
/-!
# All changes or none

The operations that register types, place pieces and seat players change a registry, a player or a
world in place. Each of them looks at everything that can be wrong before it changes anything, so
that it makes all of its changes or none (`operations_transact`). To place pieces is to spawn them
one after another if all of their types are known. If one is not, none is placed, whereas one after
another those before it are spawned (`apply_spawnEach_of_unknown`).
-/

set_option autoImplicit false
set_option relaxedAutoImplicit false

namespace Waypoints

namespace InPlace

/-! ### Registries -/

/-- Registers a move type from its description. -/
def registerMove (name : String) (params : MoveParams) :
    InPlace ConfigError Registry MoveType := do
  let m ← MoveType.ofParams name params
  modify (·.addMove m)
  return m

/-- Registers a pattern type from its description. -/
def registerPattern (name : String) (params : PatternParams) :
    InPlace ConfigError Registry PatternType := do
  let p ← PatternType.ofParams name params
  modify (·.addPattern p)
  return p

/-- Looks the types up that the description of a piece type lists, and makes the piece type. -/
def pieceOfParams (name : String) (params : PieceParams) :
    InPlace ConfigError Registry PieceType := do
  let moves ← params.moves.mapM fun m ↦ do (← get).resolveMove name m
  let patterns ← params.patterns.mapM fun p ↦ do (← get).resolvePattern name p
  PieceType.make name params.radius moves patterns params.cooldown

/-- Registers a piece type from its description. -/
def registerPiece (name : String) (params : PieceParams) :
    InPlace ConfigError Registry PieceType := do
  let p ← pieceOfParams name params
  modify (·.addPiece p)
  return p

/-! ### Players -/

/-- Adds a piece at a world position and gives it the next number. -/
def spawn (kind : PieceType) (position : Point) : InPlace ConfigError Player PieceId := do
  let id : PieceId := ⟨(← get).side, (← get).nextIndex⟩
  modify fun p ↦ { p with nextIndex := p.nextIndex + 1 }
  modify fun p ↦ { p with pieces := p.pieces ++ [Piece.fresh id p.frame kind position] }
  return id

/-- Adds several pieces at world positions, in order. -/
def gain (arrivals : List (PieceType × Point)) : InPlace ConfigError Player (List PieceId) :=
  arrivals.mapM fun (kind, position) ↦ spawn kind position

/-- The type and the world position of a placement in the player's frame. -/
def locate (registry : Registry) (placement : Placement) :
    InPlace ConfigError Player (PieceType × Point) := do
  let kind ← registry.requirePiece placement.name
  return (kind, (← get).frame.toWorld placement.place)

/-- Adds the pieces of placements in the player's frame after all of them are located. -/
def place (registry : Registry) (placements : List Placement) :
    InPlace ConfigError Player (List PieceId) := do
  gain (← placements.mapM (locate registry))

/-- Adds the pieces of placements in the player's frame one after another, each when it is
located. -/
def spawnEach (registry : Registry) (placements : List Placement) :
    InPlace ConfigError Player (List PieceId) :=
  placements.mapM fun placement ↦ do
    let (kind, position) ← locate registry placement
    spawn kind position

/-! ### Worlds -/

/-- Seats a participant. -/
def addPlayer (participant : Participant) : InPlace ConfigError World Player := do
  let player ← Player.ofParticipant participant (← get).board
  if World.maxPlayers ≤ (← get).players.length then
    throw .tooManyPlayers
  else if (← get).players.any (·.side == player.side) then
    throw (.duplicatePlayer player.side)
  else
    modify fun w ↦ { w with players := w.players ++ [player] }
    return player

/-! ### Transactions -/

theorem transacts_registerMove (name : String) (params : MoveParams) :
    (registerMove name params).Transacts (·.registerMove name params) :=
  (observes_lift (MoveType.ofParams name params)).transacts fun m ↦
    transacts_modify (fun r : Registry ↦ r.addMove m) m

theorem transacts_registerPattern (name : String) (params : PatternParams) :
    (registerPattern name params).Transacts (·.registerPattern name params) :=
  (observes_lift (PatternType.ofParams name params)).transacts fun p ↦
    transacts_modify (fun r : Registry ↦ r.addPattern p) p

theorem observes_pieceOfParams (name : String) (params : PieceParams) :
    (pieceOfParams name params).Observes (·.pieceOfParams name params) := by
  have hmoves := Observes.mapM
    (fun m ↦ observes_lookup fun r : Registry ↦ r.resolveMove name m) params.moves
  have hpatterns := Observes.mapM
    (fun p ↦ observes_lookup fun r : Registry ↦ r.resolvePattern name p) params.patterns
  exact hmoves.bind fun moves ↦ hpatterns.bind fun patterns ↦ observes_lift _

theorem transacts_registerPiece (name : String) (params : PieceParams) :
    (registerPiece name params).Transacts (·.registerPiece name params) :=
  (observes_pieceOfParams name params).transacts fun p ↦
    transacts_modify (fun r : Registry ↦ r.addPiece p) p

theorem apply_gain (arrivals : List (PieceType × Point)) (p : Player) :
    (gain arrivals).apply p = (.ok (p.gain arrivals).2, (p.gain arrivals).1) := by
  induction arrivals generalizing p with
  | nil => rfl
  | cons arrival rest ih =>
    unfold gain at ih ⊢
    rw [List.mapM_cons, apply_bind]
    change (_ >>= _ : InPlace ConfigError Player (List PieceId)).apply
      (p.spawn arrival.1 arrival.2).1 = _
    rw [apply_bind, ih]
    rfl

theorem observes_locate (registry : Registry) (placement : Placement) :
    (locate registry placement).Observes (·.locate registry placement) :=
  (observes_lift (registry.requirePiece placement.name)).bind fun _ _ ↦ rfl

theorem transacts_place (registry : Registry) (placements : List Placement) :
    (place registry placements).Transacts (·.place registry placements) :=
  (Observes.mapM (observes_locate registry) placements).transacts fun arrivals ↦
    transacts_of_settle (f := fun p : Player ↦ .ok (p.gain arrivals)) (apply_gain arrivals)

theorem transacts_addPlayer (participant : Participant) :
    (addPlayer participant).Transacts (·.addPlayer participant) := by
  have hplayer := observes_lookup fun w : World ↦ Player.ofParticipant participant w.board
  refine hplayer.transacts fun player ↦ transacts_of_settle fun w ↦ ?_
  rw [apply_get_bind]
  split
  · rfl
  · rw [apply_get_bind]
    split <;> rfl

/-! ### Spawning one after another -/

section Spawning

variable {registry : Registry} {placements before : List Placement} {placement : Placement}
  {arrivals : List (PieceType × Point)} {p : Player}

theorem apply_spawnEach_cons {arrival : PieceType × Point}
    (h : p.locate registry placement = .ok arrival) :
    (spawnEach registry (placement :: placements)).apply p =
      ((spawnEach registry placements).apply (p.spawn arrival.1 arrival.2).1).map
        (((p.spawn arrival.1 arrival.2).2 :: ·) <$> ·) id := by
  have hlocate : (locate registry placement).apply p = (.ok arrival, p) :=
    h ▸ observes_locate registry placement p
  unfold spawnEach
  rw [List.mapM_cons, apply_bind, apply_bind, hlocate]
  exact apply_map _ ((p.spawn arrival.1 arrival.2).2 :: ·) (p.spawn arrival.1 arrival.2).1

/-- The pieces of placements that can be located are gained, and it goes on from there. -/
theorem apply_spawnEach_append (h : before.mapM (p.locate registry) = .ok arrivals)
    (later : List Placement) :
    (spawnEach registry (before ++ later)).apply p =
      ((spawnEach registry later).apply (p.gain arrivals).1).map
        (((p.gain arrivals).2 ++ ·) <$> ·) id := by
  induction before generalizing arrivals p with
  | nil =>
    cases h
    change (spawnEach registry later).apply p =
      ((spawnEach registry later).apply p).map (id <$> ·) id
    simp only [id_map]
    rfl
  | cons placement before ih =>
    rw [List.mapM_cons] at h
    obtain ⟨arrival, harrival, h⟩ := Except.exists_of_bind_eq_ok h
    obtain ⟨rest, hrest, h⟩ := Except.exists_of_bind_eq_ok h
    cases h
    -- Spawning a piece does not move the frame in which the next ones are located.
    have hlater := ih (p := (p.spawn arrival.1 arrival.2).1) hrest
    rw [List.cons_append, apply_spawnEach_cons harrival, hlater]
    exact Prod.ext (comp_map _ _ _).symm rfl

/-- Placements that can all be located are spawned as they are gained together. -/
theorem apply_spawnEach_of_known (h : placements.mapM (p.locate registry) = .ok arrivals) :
    (spawnEach registry placements).apply p = (.ok (p.gain arrivals).2, (p.gain arrivals).1) := by
  rw [← List.append_nil placements, apply_spawnEach_append h]
  exact Prod.ext (congrArg Except.ok (List.append_nil _)) rfl

/-- The pieces before a placement of an unknown type are spawned and stay. -/
theorem apply_spawnEach_of_unknown {later : List Placement} {bad : Placement} {e : ConfigError}
    (h : before.mapM (p.locate registry) = .ok arrivals)
    (hbad : registry.requirePiece bad.name = .error e) :
    (spawnEach registry (before ++ bad :: later)).apply p = (.error e, (p.gain arrivals).1) := by
  have hlocate (p : Player) : (locate registry bad).apply p = (.error e, p) := by
    refine (observes_locate registry bad p).trans (congrArg (·, p) ?_)
    change p.locate registry bad = _
    rw [Player.locate, hbad]
    rfl
  rw [apply_spawnEach_append h]
  unfold spawnEach
  rw [List.mapM_cons, apply_bind, apply_bind, hlocate]
  rfl

end Spawning

end InPlace

/-! ### Unknown types -/

/-- The first placement of an unknown type comes after placements of known types. -/
theorem head?_unknownPlacements_eq_some {r : Registry} {placements : List Placement}
    {e : ConfigError} : (unknownPlacements r placements).head? = some e ↔
      ∃ before bad later, placements = before ++ bad :: later ∧
        (∀ placement ∈ before, placement.name ∈ r.pieces.names) ∧
        bad.name ∉ r.pieces.names ∧ e = .unknownPieceType bad.name := by
  have hfault (placement : Placement) (e : ConfigError) :
      (faultUnless (placement.name ∈ r.pieces.names)
        (.unknownPieceType placement.name)).head? = some e ↔
        placement.name ∉ r.pieces.names ∧ e = .unknownPieceType placement.name := by
    unfold faultUnless
    by_cases hknown : placement.name ∈ r.pieces.names
    · rw [if_pos hknown]
      exact ⟨fun h ↦ (nomatch h), fun h ↦ absurd hknown h.1⟩
    · rw [if_neg hknown, List.head?_cons, Option.some_inj, eq_comm, and_iff_right hknown]
  simp only [unknownPlacements, List.head?_flatMap, List.findSome?_eq_some_iff,
    List.head?_eq_none_iff, faultUnless_eq_nil, hfault]
  refine exists_congr fun before ↦ exists_congr fun bad ↦ exists_congr fun later ↦ ?_
  rw [and_comm (b := ∀ _ ∈ before, _)]

section Placing

variable {registry : Registry} {placements : List Placement} {p : Player}

/-- Placing fails for the first placement of an unknown type. -/
theorem place_eq_error_iff {e : ConfigError} :
    p.place registry placements = .error e ↔
      (unknownPlacements registry placements).head? = some e := by
  rw [← (reports_locateAll p placements).error_iff]
  unfold Player.place
  cases placements.mapM (p.locate registry) with
  | error e' =>
    change Except.error e' = Except.error e ↔ _
    rw [Except.error.injEq, Except.error.injEq]
  | ok arrivals => constructor <;> exact fun h ↦ nomatch h

/-- Placing is spawning one after another, if that succeeds. -/
theorem place_eq_ok_iff {p' : Player} {ids : List PieceId} :
    p.place registry placements = .ok (p', ids) ↔
      (InPlace.spawnEach registry placements).apply p = (.ok ids, p') := by
  unfold Player.place
  cases hlocate : placements.mapM (p.locate registry) with
  | ok arrivals =>
    rw [InPlace.apply_spawnEach_of_known hlocate]
    change Except.ok (p.gain arrivals) = _ ↔ _
    rw [Prod.mk.injEq, Except.ok.injEq, Except.ok.injEq, Prod.ext_iff, and_comm]
  | error e =>
    have hfault := ((reports_locateAll p placements).error_iff e).1 hlocate
    obtain ⟨before, bad, later, rfl, hbefore, hbad, -⟩ := head?_unknownPlacements_eq_some.1 hfault
    obtain ⟨arrivals, harrivals⟩ := (reports_locateAll p before).exists_ok_iff.2
      (unknownPlacements_eq_nil.2 hbefore)
    have hrequire : registry.requirePiece bad.name = .error (.unknownPieceType bad.name) := by
      have hnone := Option.not_isSome_iff_eq_none.1 (mt (NameMap.find?_isSome_iff ..).1 hbad)
      rw [Registry.requirePiece, hnone]
    rw [InPlace.apply_spawnEach_of_unknown harrivals hrequire]
    constructor <;>
    · intro h
      cases h

end Placing

/-- Registering a type, placing pieces and seating a player give what they are said to give, and
leave the registry, the player or the world as it was if they fail. To place pieces is to spawn them
one after another if that succeeds, and fails for the first placement of an unknown type. -/
theorem operations_transact :
    (∀ name params, (InPlace.registerMove name params).Transacts (·.registerMove name params)) ∧
    (∀ name params,
      (InPlace.registerPattern name params).Transacts (·.registerPattern name params)) ∧
    (∀ name params, (InPlace.registerPiece name params).Transacts (·.registerPiece name params)) ∧
    (∀ participant, (InPlace.addPlayer participant).Transacts (·.addPlayer participant)) ∧
    ∀ registry placements,
      (InPlace.place registry placements).Transacts (·.place registry placements) ∧
      (∀ p p' ids, (InPlace.place registry placements).apply p = (.ok ids, p') ↔
        (InPlace.spawnEach registry placements).apply p = (.ok ids, p')) ∧
      ∀ p p' e, (InPlace.place registry placements).apply p = (.error e, p') ↔
        p' = p ∧ ∃ before bad later, placements = before ++ bad :: later ∧
          (∀ placement ∈ before, placement.name ∈ registry.pieces.names) ∧
          bad.name ∉ registry.pieces.names ∧ e = .unknownPieceType bad.name := by
  refine ⟨InPlace.transacts_registerMove, InPlace.transacts_registerPattern,
    InPlace.transacts_registerPiece, InPlace.transacts_addPlayer, fun registry placements ↦ ?_⟩
  have hplace := InPlace.transacts_place registry placements
  refine ⟨hplace, fun p p' ids ↦ ?_, fun p p' e ↦ ?_⟩
  · rw [hplace.ok_iff, place_eq_ok_iff]
  · rw [hplace.error_iff, place_eq_error_iff, head?_unknownPlacements_eq_some, and_comm]

end Waypoints
