import Mathlib.Data.List.Nodup
import Mathlib.Data.List.Perm.Subperm
import Waypoints.Match.Session
import Waypoints.Proofs.Content.Registry
import Waypoints.Proofs.Match.Setup
import Waypoints.Proofs.Runs
/-!
# What may be done in a match

A `Player.Action` is one of the things that may be done with a player: giving it pieces, taking them
away, changing them, or asking about them. A `World.Operation` seats a player or acts on one.
`Player.act` and `World.perform` say what they do. Whatever the action, it gives the player some
pieces, takes one away, or leaves every piece what it is (`Player.acts_act`).
-/

set_option autoImplicit false
set_option relaxedAutoImplicit false

namespace Waypoints

/-! ### Changes to a piece -/

/-- A change to a piece. -/
inductive Piece.Edit
  | moveTo (position : Point)
  | setMove (move : Option Move)
  | setPattern (pattern : Option Pattern)
  | advance

/-- A piece and the same piece at another time. -/
structure Piece.Persists (p p' : Piece) : Prop where
  id_eq : p'.id = p.id
  frame_eq : p'.frame = p.frame
  kind_eq : p'.kind = p.kind

namespace Piece

/-- The piece after a change, and the reply to it. -/
def edit (p : Piece) : Edit → Piece × Reply
  | .moveTo position => (p.moveTo position, .piece (p.moveTo position))
  | .setMove move =>
    let changed := { p with currentMove := move }
    (changed, .replacedMove p.currentMove changed)
  | .setPattern pattern =>
    let changed := { p with currentPattern := pattern }
    (changed, .replacedPattern p.currentPattern changed)
  | .advance => (p.advance.1, .advanced p.advance.2 p.advance.1)

/-- The piece after a row of changes. -/
def editAll (p : Piece) (edits : List Edit) : Piece :=
  System.after edit p edits

theorem Persists.refl (p : Piece) : p.Persists p :=
  ⟨rfl, rfl, rfl⟩

theorem Persists.trans {p p' p'' : Piece} (h : p.Persists p') (h' : p'.Persists p'') :
    p.Persists p'' :=
  ⟨h'.id_eq.trans h.id_eq, h'.frame_eq.trans h.frame_eq, h'.kind_eq.trans h.kind_eq⟩

theorem persists_edit (p : Piece) (edit : Edit) : p.Persists (p.edit edit).1 := by
  cases edit with
  | moveTo | setMove | setPattern => exact ⟨rfl, rfl, rfl⟩
  | advance =>
    change p.Persists p.advance.1
    unfold advance
    split <;> exact ⟨rfl, rfl, rfl⟩

theorem persists_editAll (p : Piece) (edits : List Edit) : p.Persists (p.editAll edits) := by
  induction edits generalizing p with
  | nil => exact .refl p
  | cons edit edits ih => exact (p.persists_edit edit).trans (ih _)

end Piece

/-! ### Actions on a player -/

/-- What may be done with a player. -/
inductive Player.Action
  | spawn (kind : PieceType) (position : Point)
  | gain (arrivals : List (PieceType × Point))
  | place (registry : Registry) (placements : List Placement)
  | remove (id : PieceId)
  | edit (id : PieceId) (edit : Piece.Edit)
  /-- Changes the pieces one after another, each by its number in the row and what it is. -/
  | editEach (edits : Nat → Piece → List Piece.Edit)
  | moves (id : PieceId)
  | patterns (id : PieceId)
  | legal (id : PieceId) (rule : Rule)

namespace Player

/-- The reply to a question about a piece. -/
def ask (p : Player) (id : PieceId) (reply : Piece → Reply) : Player × Reply :=
  (p, (p.piece? id).elim .nothing reply)

/-- The player after an action, and the reply to it. -/
def act (board : Board) (p : Player) : Action → Player × Reply
  | .spawn kind position => ((p.spawn kind position).1, .id (p.spawn kind position).2)
  | .gain arrivals => ((p.gain arrivals).1, .ids (p.gain arrivals).2)
  | .place registry placements =>
    match p.place registry placements with
    | .ok (p, ids) => (p, .ids ids)
    | .error e => (p, .config e)
  | .remove id =>
    match p.remove? id with
    | some (p, piece) => (p, .piece piece)
    | none => (p, .nothing)
  | .edit id edit =>
    match p.piece? id with
    | some piece => (p.updatePiece id fun _ ↦ (piece.edit edit).1, (piece.edit edit).2)
    | none => (p, .nothing)
  | .editEach edits =>
    let pieces := p.pieces.mapIdx fun n piece ↦ piece.editAll (edits n piece)
    ({ p with pieces := pieces }, .pieces pieces)
  | .moves id => p.ask id fun piece ↦ .ofExpr .moves (piece.possibleMoves board)
  | .patterns id => p.ask id fun piece ↦ .ofExpr .patterns (piece.possiblePatterns board)
  | .legal id rule => p.ask id fun piece ↦ .ofExpr .moves (piece.legalMoves board rule)

end Player

namespace Player.Action

/-- The identifiers and the types of the pieces that an action gave, by the reply to it. -/
def births : Action → Reply → List (PieceId × PieceType)
  | .spawn kind _, .id id => [(id, kind)]
  | .gain arrivals, .ids ids => ids.zip (arrivals.map (·.1))
  | .place registry placements, .ids ids =>
    ids.zip (placements.filterMap fun placement ↦ registry.pieces.find? placement.name)
  | _, _ => []

/-- The identifier of the piece that an action took away, by the reply to it. -/
def losses : Action → Reply → List PieceId
  | .remove id, .piece _ => [id]
  | _, _ => []

/-- The reply to an action on a player: an identifier for each of the pieces that it gives, unless a
placement is of an unknown type, and the piece that it takes away, if there is one. -/
def Answers : Action → Reply → Prop
  | .spawn _ _, reply => ∃ id, reply = .id id
  | .gain arrivals, reply => ∃ ids, reply = .ids ids ∧ ids.length = arrivals.length
  | .place registry placements, reply =>
    (∃ ids, reply = .ids ids ∧ ids.length = placements.length ∧
        ∀ placement ∈ placements, (registry.pieces.find? placement.name).isSome) ∨
      ∃ error, reply = .config error ∧
        ∃ placement ∈ placements, registry.pieces.find? placement.name = none
  | .remove id, reply => reply = .nothing ∨ ∃ piece, reply = .piece piece ∧ piece.id = id
  | _, _ => True

theorem births_nothing (action : Action) : action.births .nothing = [] := by
  cases action <;> rfl

theorem losses_nothing (action : Action) : action.losses .nothing = [] := by
  cases action <;> rfl

end Player.Action

/-! ### What actions do -/

/-- What stays of a piece: its identifier and its type. -/
def Piece.entry (p : Piece) : PieceId × PieceType :=
  (p.id, p.kind)

/-- What an action may make of a player, with the pieces that it gives and takes away. -/
inductive Player.Acts (p : Player) : Player → List (PieceId × PieceType) → List PieceId → Prop
  | gains (arrivals : List (PieceType × Point)) :
    p.Acts (p.gain arrivals).1 ((numbered p.side p.frame p.nextIndex arrivals).map Piece.entry) []
  | loses {id : PieceId} {piece : Piece} (h : p.piece? id = some piece) :
    p.Acts { p with pieces := p.pieces.eraseP (·.id == id) } [] [id]
  | keeps {pieces : List Piece} (h : List.Forall₂ Piece.Persists p.pieces pieces) :
    p.Acts { p with pieces := pieces } [] []

theorem ids_gain (p : Player) (arrivals : List (PieceType × Point)) :
    (p.gain arrivals).2 = (numbered p.side p.frame p.nextIndex arrivals).map (·.id) := by
  induction arrivals generalizing p with
  | nil => rfl
  | cons arrival rest ih => exact congrArg (List.cons _) (ih (p.spawn arrival.1 arrival.2).1)

theorem kinds_numbered (side : Side) (frame : Frame) (index : UInt32)
    (arrivals : List (PieceType × Point)) :
    (numbered side frame index arrivals).map (·.kind) = arrivals.map (·.1) := by
  induction arrivals generalizing index with
  | nil => rfl
  | cons arrival rest ih => exact congrArg (List.cons _) (ih (index + 1))

theorem zip_gain (p : Player) (arrivals : List (PieceType × Point)) :
    (p.gain arrivals).2.zip (arrivals.map (·.1)) =
      (numbered p.side p.frame p.nextIndex arrivals).map Piece.entry := by
  rw [ids_gain, ← kinds_numbered p.side p.frame p.nextIndex]
  exact List.zip_map'

/-- A placement that a player can locate names the type of its arrival. -/
theorem find?_of_locate {p : Player} {registry : Registry} {placement : Placement}
    {arrival : PieceType × Point} (h : p.locate registry placement = .ok arrival) :
    registry.pieces.find? placement.name = some arrival.1 := by
  obtain ⟨kind, hkind, h⟩ := Except.exists_of_bind_eq_ok h
  cases h
  exact NameMap.find?_of_resolve (fun kind h ↦ by rw [Registry.requirePiece, h])
    (fun h ↦ by rw [Registry.requirePiece, h]) hkind

theorem filterMap_of_locate {p : Player} {registry : Registry} {placements : List Placement}
    {arrivals : List (PieceType × Point)}
    (h : List.Forall₂ (fun placement arrival ↦ p.locate registry placement = .ok arrival)
      placements arrivals) :
    placements.filterMap (fun placement ↦ registry.pieces.find? placement.name) =
      arrivals.map (·.1) := by
  induction h with
  | nil => rfl
  | cons hhead _ ih =>
    rw [List.filterMap_cons, find?_of_locate hhead, ih]
    rfl

/-- Placing pieces is gaining pieces of the types that the placements name. -/
theorem exists_gain_of_place {p : Player} {registry : Registry} {placements : List Placement}
    {result : Player × List PieceId} (h : p.place registry placements = .ok result) :
    ∃ arrivals, result = p.gain arrivals ∧
      placements.filterMap (fun placement ↦ registry.pieces.find? placement.name) =
        arrivals.map (·.1) := by
  obtain ⟨arrivals, harrivals, hgain⟩ := Except.exists_of_bind_eq_ok h
  exact ⟨arrivals, (Except.ok.inj hgain).symm,
    filterMap_of_locate (Except.mapM_eq_ok_iff.1 harrivals)⟩

/-- A placement that a player cannot locate is of an unknown type. -/
theorem find?_of_locate_error {p : Player} {registry : Registry} {placement : Placement}
    {e : ConfigError} (h : p.locate registry placement = .error e) :
    registry.pieces.find? placement.name = none := by
  cases hfind : registry.pieces.find? placement.name with
  | none => rfl
  | some kind =>
    rw [Player.locate, Registry.requirePiece, hfind] at h
    cases h

/-- Changing the first element that a test accepts relates it to what it becomes. -/
theorem forall₂_updateFirst {α : Type} {r : α → α → Prop} (hrefl : ∀ a, r a a) {test : α → Bool}
    {f : α → α} {l : List α} (h : ∀ a, l.find? test = some a → r a (f a)) :
    List.Forall₂ r l (updateFirst test f l) := by
  induction l with
  | nil => exact .nil
  | cons a l ih =>
    unfold updateFirst
    split
    · next ha =>
      exact .cons (h a (List.find?_cons_of_pos ha)) (List.forall₂_same.2 fun b _ ↦ hrefl b)
    · next ha => exact .cons (hrefl a) (ih fun b hb ↦ h b ((List.find?_cons_of_neg ha).trans hb))

/-- Only the first element that a test accepts changes. -/
theorem updateFirst_append {α : Type} {test : α → Bool} {f : α → α} {before later : List α} {a : α}
    (hbefore : ∀ b ∈ before, test b = false) (ha : test a) :
    updateFirst test f (before ++ a :: later) = before ++ f a :: later := by
  induction before with
  | nil => exact if_pos ha
  | cons b before ih =>
    obtain ⟨hb, hbefore⟩ := List.forall_mem_cons.1 hbefore
    exact (if_neg (Bool.eq_false_iff.1 hb)).trans (congrArg (List.cons b) (ih hbefore))

theorem forall₂_mapIdx {α : Type} {r : α → α → Prop} {f : Nat → α → α} (h : ∀ n a, r a (f n a))
    (l : List α) : List.Forall₂ r l (l.mapIdx f) := by
  induction l generalizing f with
  | nil => exact .nil
  | cons a l ih =>
    rw [List.mapIdx_cons]
    exact .cons (h 0 a) (ih fun n ↦ h (n + 1))

namespace Player

theorem acts_self (p : Player) : p.Acts p [] [] :=
  .keeps (List.forall₂_same.2 fun piece _ ↦ .refl piece)

theorem remove?_eq (p : Player) (id : PieceId) : p.remove? id = (p.piece? id).map fun piece ↦
    ({ p with pieces := p.pieces.eraseP (·.id == id) }, piece) := by
  rw [remove?]
  cases p.piece? id <;> rfl

/-- Whatever an action does is one of three things. -/
theorem acts_act (board : Board) (p : Player) (action : Action) :
    p.Acts (p.act board action).1 (action.births (p.act board action).2)
      (action.losses (p.act board action).2) := by
  cases action with
  | spawn kind position => exact .gains [(kind, position)]
  | gain arrivals =>
    change p.Acts (p.gain arrivals).1 ((p.gain arrivals).2.zip (arrivals.map (·.1))) []
    rw [zip_gain]
    exact .gains arrivals
  | place registry placements =>
    cases hplace : p.place registry placements with
    | error e =>
      rw [act, hplace]
      exact p.acts_self
    | ok result =>
      obtain ⟨arrivals, rfl, hkinds⟩ := exists_gain_of_place hplace
      rw [act, hplace]
      change p.Acts _ ((p.gain arrivals).2.zip (placements.filterMap _)) []
      rw [hkinds, zip_gain]
      exact .gains arrivals
  | remove id =>
    cases hpiece : p.piece? id with
    | none =>
      rw [act, remove?_eq, hpiece]
      exact p.acts_self
    | some piece =>
      rw [act, remove?_eq, hpiece]
      exact .loses hpiece
  | edit id edit =>
    cases hpiece : p.piece? id with
    | none =>
      rw [act, hpiece]
      exact p.acts_self
    | some piece =>
      -- The piece that is replaced is the one that was found and changed.
      have hkept : List.Forall₂ Piece.Persists p.pieces
          (updateFirst (·.id == id) (fun _ ↦ (piece.edit edit).1) p.pieces) := by
        refine forall₂_updateFirst Piece.Persists.refl fun found hfound ↦ ?_
        obtain rfl : piece = found := Option.some.inj (hpiece.symm.trans hfound)
        exact piece.persists_edit edit
      rw [act, hpiece]
      cases edit <;> exact .keeps hkept
  | editEach edits => exact .keeps (forall₂_mapIdx (fun n piece ↦ piece.persists_editAll _) _)
  | moves | patterns | legal => exact p.acts_self

/-- A player issues an identifier for each piece that it gains. -/
theorem length_ids_gain (p : Player) (arrivals : List (PieceType × Point)) :
    (p.gain arrivals).2.length = arrivals.length := by
  induction arrivals generalizing p with
  | nil => rfl
  | cons arrival rest ih => exact congrArg (· + 1) (ih (p.spawn arrival.1 arrival.2).1)

/-- Every action is replied to with what it gives or takes away. -/
theorem answers_act (board : Board) (p : Player) (action : Action) :
    action.Answers (p.act board action).2 := by
  cases action with
  | spawn kind position => exact ⟨_, rfl⟩
  | gain arrivals => exact ⟨_, rfl, p.length_ids_gain arrivals⟩
  | place registry placements =>
    cases hmap : placements.mapM (p.locate registry) with
    | error e =>
      obtain ⟨placement, hplacement, herror⟩ := Except.exists_of_mapM_eq_error hmap
      refine .inr ⟨e, ?_, placement, hplacement, find?_of_locate_error herror⟩
      rw [act, place, hmap]
      rfl
    | ok arrivals =>
      have hlocated := Except.mapM_eq_ok_iff.1 hmap
      refine .inl ⟨(p.gain arrivals).2, ?_, ?_, fun placement hplacement ↦ ?_⟩
      · rw [act, place, hmap]
        rfl
      · rw [length_ids_gain, hlocated.length_eq]
      · obtain ⟨arrival, -, harrival⟩ := hlocated.flip.exists_of_mem_right hplacement
        rw [find?_of_locate harrival]
        rfl
  | remove id =>
    cases hpiece : p.piece? id with
    | none =>
      refine .inl ?_
      rw [act, remove?_eq, hpiece]
      rfl
    | some piece =>
      refine .inr ⟨piece, ?_, beq_iff_eq.1 (List.find?_eq_some_iff_append.1 hpiece).1⟩
      rw [act, remove?_eq, hpiece]
      rfl
  | _ => trivial

end Player

/-! ### Operations on a world -/

/-- What may be done with a world. -/
inductive World.Operation
  | addPlayer (participant : Participant)
  | act (side : Side) (action : Player.Action)

namespace World

/-- The world after an operation, and the reply to it. -/
def perform (w : World) : Operation → World × Reply
  | .addPlayer participant =>
    match w.addPlayer participant with
    | .ok (w, player) => (w, .player player)
    | .error e => (w, .config e)
  | .act side action => w.onPlayer side fun player ↦ player.act w.board action

/-- Seating a participant: the number is looked at first, then whether the world is full, and then
whether the side is taken. -/
theorem addPlayer_eq (w : World) (participant : Participant) : w.addPlayer participant =
    match participant.side? with
    | none => .error (.unknownParticipant participant)
    | some side =>
      if maxPlayers ≤ w.players.length then .error .tooManyPlayers
      else if side ∈ w.players.map (·.side) then .error (.duplicatePlayer side)
      else
        let player := Player.fresh side (side.frame w.board)
        .ok ({ w with players := w.players ++ [player] }, player) := by
  unfold addPlayer Player.ofParticipant
  cases participant.side? with
  | none => rfl
  | some side =>
    have htaken : w.players.any (·.side == (Player.fresh side (side.frame w.board)).side) ↔
        side ∈ w.players.map (·.side) := by
      simp only [List.any_eq_true, beq_iff_eq, List.mem_map]
      rfl
    change (if _ then _ else if _ then _ else _) = _
    simp only [htaken]
    rfl

/-- There are only two sides. -/
theorem length_le_two_of_nodup {sides : List Side} (h : sides.Nodup) : sides.length ≤ 2 := by
  have hall : sides ⊆ [.one, .two] := fun side _ ↦ by cases side <;> decide
  exact (List.subperm_of_subset h hall).length_le

/-- A participant who owns a side takes it unless it is taken: as long as the sides of the players
differ, a world is never full while a side is free. -/
theorem perform_addPlayer {w : World} (h : (w.players.map (·.side)).Nodup)
    (participant : Participant) : (w.perform (.addPlayer participant)).1 =
      match participant.side? with
      | none => w
      | some side =>
        if side ∈ w.players.map (·.side) then w
        else { w with players := w.players ++ [Player.fresh side (side.frame w.board)] } := by
  have hperform : (w.perform (.addPlayer participant)).1 =
      match w.addPlayer participant with
      | .ok (w', _) => w'
      | .error _ => w := by
    rw [perform]
    cases w.addPlayer participant <;> rfl
  rw [hperform, addPlayer_eq]
  cases participant.side? with
  | none => rfl
  | some side =>
    change (match (if _ then _ else _ : Except ConfigError (World × Player)) with
      | .ok (w', _) => w' | .error _ => w) = if _ then _ else _
    by_cases hside : side ∈ w.players.map (·.side)
    · rw [if_pos hside, if_pos hside]
      split_ifs <;> rfl
    · have hroom : ¬maxPlayers ≤ w.players.length := by
        have hlength := length_le_two_of_nodup (List.nodup_cons.2 ⟨hside, h⟩)
        rw [List.length_cons, List.length_map] at hlength
        exact Nat.not_le.2 hlength
      rw [if_neg hroom, if_neg hside, if_neg hside]

theorem onPlayer_none {w : World} {side : Side} (h : w.player? side = none)
    (change : Player → Player × Reply) : w.onPlayer side change = (w, .nothing) := by
  rw [onPlayer, h]

/-- What is done to the first player of a side leaves the others alone. -/
theorem onPlayer_some {w : World} {side : Side} {before later : List Player} {p : Player}
    (hplayers : w.players = before ++ p :: later) (hbefore : ∀ q ∈ before, q.side ≠ side)
    (hp : p.side = side) (change : Player → Player × Reply) : w.onPlayer side change =
      ({ w with players := before ++ (change p).1 :: later }, (change p).2) := by
  have hothers : ∀ q ∈ before, (q.side == side) = false :=
    fun q hq ↦ beq_eq_false_iff_ne.2 (hbefore q hq)
  have hfind : w.player? side = some p := by
    refine List.find?_eq_some_iff_append.2 ⟨beq_iff_eq.2 hp, before, later, hplayers, fun q hq ↦ ?_⟩
    rw [hothers q hq]
    rfl
  have hfirst : updateFirst (·.side == side) (fun _ ↦ (change p).1) w.players =
      before ++ (change p).1 :: later := by
    rw [hplayers]
    exact updateFirst_append hothers (beq_iff_eq.2 hp)
  rw [onPlayer, hfind]
  change (w.updatePlayer side fun _ ↦ (change p).1, (change p).2) = _
  rw [updatePlayer, hfirst]

/-- An action is one on the player of the side, if there is one, and leaves the others alone. -/
theorem perform_act (w : World) (side : Side) (action : Player.Action) :
    (side ∉ w.players.map (·.side) ∧ w.perform (.act side action) = (w, .nothing)) ∨
      ∃ before p later, w.players = before ++ p :: later ∧ p.side = side ∧
        w.perform (.act side action) =
          ({ w with players := before ++ (p.act w.board action).1 :: later },
            (p.act w.board action).2) := by
  cases hplayer : w.player? side with
  | none =>
    refine .inl ⟨fun hside ↦ ?_, onPlayer_none hplayer _⟩
    obtain ⟨p, hp, rfl⟩ := List.mem_map.1 hside
    exact List.find?_eq_none.1 hplayer p hp (beq_self_eq_true _)
  | some p =>
    obtain ⟨hp, before, later, hplayers, hbefore⟩ := List.find?_eq_some_iff_append.1 hplayer
    have hothers : ∀ q ∈ before, q.side ≠ side := fun q hq ↦ by simpa using hbefore q hq
    exact .inr ⟨before, p, later, hplayers, beq_iff_eq.1 hp,
      onPlayer_some hplayers hothers (beq_iff_eq.1 hp) _⟩

end World

/-- A type of piece that does not move. -/
def PieceType.still : PieceType where
  name := "piece"
  radius := 1
  moves := []
  patterns := []
  cooldown := 0
  radius_valid := rfl
  cooldown_valid := rfl

end Waypoints
