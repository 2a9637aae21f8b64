import Waypoints.Proofs.Match.Actions
import Waypoints.Proofs.Match.Opening
/-!
# Who is in a match

After every run of operations from a world without players, at most two players are seated, on
different sides and in the frames of their sides, and each holds, in the order in which they came,
the pieces that it was given less those that were taken away (`players_sound`).
-/

set_option autoImplicit false
set_option relaxedAutoImplicit false

namespace Waypoints

/-! ### Rosters -/

/-- What is left of a roster when identifiers are struck out one after another, each at the first
place where it still stands. -/
def strikeOut (roster : List (PieceId × PieceType)) (gone : List PieceId) :
    List (PieceId × PieceType) :=
  gone.foldl (fun left id ↦ left.eraseP (·.1 == id)) roster

section StrikeOut

variable {roster : List (PieceId × PieceType)} {gone : List PieceId}

theorem strikeOut_cons (roster : List (PieceId × PieceType)) (id : PieceId) (gone : List PieceId) :
    strikeOut roster (id :: gone) = strikeOut (roster.eraseP (·.1 == id)) gone :=
  rfl

theorem strikeOut_concat (roster : List (PieceId × PieceType)) (gone : List PieceId)
    (id : PieceId) : strikeOut roster (gone ++ [id]) = (strikeOut roster gone).eraseP (·.1 == id) :=
  List.foldl_append

theorem strikeOut_sublist (roster : List (PieceId × PieceType)) (gone : List PieceId) :
    (strikeOut roster gone).Sublist roster := by
  induction gone generalizing roster with
  | nil => exact .refl _
  | cons id gone ih => exact (ih _).trans List.eraseP_sublist

theorem length_le_strikeOut (roster : List (PieceId × PieceType)) (gone : List PieceId) :
    roster.length ≤ gone.length + (strikeOut roster gone).length := by
  induction gone generalizing roster with
  | nil => exact Nat.le_add_left _ 0
  | cons id gone ih =>
    have hrest := ih (roster.eraseP (·.1 == id))
    have hone : roster.length - 1 ≤ (roster.eraseP (·.1 == id)).length := List.le_length_eraseP
    rw [strikeOut_cons, List.length_cons]
    omega

/-- If every identifier was found, then what comes behind the roster stays. -/
theorem strikeOut_append (h : gone.length + (strikeOut roster gone).length = roster.length)
    (more : List (PieceId × PieceType)) :
    strikeOut (roster ++ more) gone = strikeOut roster gone ++ more := by
  induction gone generalizing roster with
  | nil => rfl
  | cons id gone ih =>
    rw [strikeOut_cons, List.length_cons] at h
    have hrest := length_le_strikeOut (roster.eraseP (·.1 == id)) gone
    by_cases hfound : ∃ e ∈ roster, e.1 = id
    · obtain ⟨e, he, hid⟩ := hfound
      have hmatch : (e.1 == id) = true := beq_iff_eq.2 hid
      have hlength : (roster.eraseP (·.1 == id)).length = roster.length - 1 :=
        List.length_eraseP_of_mem he hmatch
      have hsplit : (roster ++ more).eraseP (·.1 == id) = roster.eraseP (·.1 == id) ++ more :=
        List.eraseP_append_left (p := fun e ↦ e.1 == id) hmatch more he
      have hpos := List.length_pos_of_mem he
      rw [strikeOut_cons, hsplit, ih (by omega)]
      rfl
    · -- An identifier that is not found leaves one entry too many.
      have hsame : roster.eraseP (·.1 == id) = roster :=
        List.eraseP_of_forall_not fun e he hid ↦ hfound ⟨e, he, beq_iff_eq.1 hid⟩
      rw [hsame] at h hrest
      omega

end StrikeOut

/-! ### What a player has been given and has lost -/

namespace Player

/-- The pieces that a player was given in the course of actions, in order. -/
def born (trace : List (Action × Reply)) : List (PieceId × PieceType) :=
  trace.flatMap fun e ↦ e.1.births e.2

/-- The pieces that were taken away from a player in the course of actions, in order. -/
def lost (trace : List (Action × Reply)) : List PieceId :=
  trace.flatMap fun e ↦ e.1.losses e.2

/-- A player holds what it was given less what was taken away, all of its side and in its frame, and
numbered in the order in which it came. -/
structure Accounts (born : List (PieceId × PieceType)) (lost : List PieceId) (p : Player) :
    Prop where
  owner_eq : ∀ piece ∈ p.pieces, piece.owner = p.side
  frame_eq : ∀ piece ∈ p.pieces, piece.frame = p.frame
  pieces_eq : p.pieces.map Piece.entry = strikeOut born lost
  length_eq : lost.length + p.pieces.length = born.length
  ids_eq : born.map (·.1) = (List.range born.length).map fun n ↦ ⟨p.side, UInt32.ofNat n⟩
  nextIndex_eq : p.nextIndex = UInt32.ofNat born.length

end Player

/-! ### What an action keeps -/

theorem ids_numbered (side : Side) (frame : Frame) (n : Nat)
    (arrivals : List (PieceType × Point)) :
    (numbered side frame (UInt32.ofNat n) arrivals).map (·.id) =
      (List.range' n arrivals.length).map fun n ↦ ⟨side, UInt32.ofNat n⟩ := by
  induction arrivals generalizing n with
  | nil => rfl
  | cons arrival rest ih =>
    have hnext : UInt32.ofNat n + 1 = UInt32.ofNat (n + 1) := (UInt32.ofNat_add n 1).symm
    rw [List.length_cons, List.range'_succ, List.map_cons, ← ih (n + 1), ← hnext]
    rfl

theorem length_numbered (side : Side) (frame : Frame) (index : UInt32)
    (arrivals : List (PieceType × Point)) :
    (numbered side frame index arrivals).length = arrivals.length := by
  induction arrivals generalizing index with
  | nil => rfl
  | cons arrival rest ih => exact congrArg Nat.succ (ih (index + 1))

namespace Player

variable {p p' : Player} {born births : List (PieceId × PieceType)} {lost losses : List PieceId}

theorem accounts_fresh (side : Side) (frame : Frame) : (fresh side frame).Accounts [] [] where
  owner_eq _ h := nomatch h
  frame_eq _ h := nomatch h
  pieces_eq := rfl
  length_eq := rfl
  ids_eq := rfl
  nextIndex_eq := rfl

theorem Acts.side_eq (h : p.Acts p' births losses) : p'.side = p.side := by
  cases h with
  | gains arrivals => exact (pieces_gain p arrivals).1
  | loses | keeps => rfl

theorem Acts.frame_eq (h : p.Acts p' births losses) : p'.frame = p.frame := by
  cases h with
  | gains arrivals => exact (pieces_gain p arrivals).2.1
  | loses | keeps => rfl

namespace Accounts

theorem gain (h : p.Accounts born lost) (arrivals : List (PieceType × Point)) :
    (p.gain arrivals).1.Accounts
      (born ++ (numbered p.side p.frame p.nextIndex arrivals).map Piece.entry) lost := by
  obtain ⟨hside, hframe, hpieces⟩ := pieces_gain p arrivals
  have hnew : ∀ piece ∈ numbered p.side p.frame p.nextIndex arrivals,
      piece.owner = p.side ∧ piece.frame = p.frame := by
    intro piece hpiece
    obtain ⟨arrival, -, number, rfl⟩ := mem_numbered hpiece
    exact ⟨rfl, rfl⟩
  have hlength : ((numbered p.side p.frame p.nextIndex arrivals).map Piece.entry).length =
      arrivals.length := by
    rw [List.length_map, length_numbered]
  refine ⟨?_, ?_, ?_, ?_, ?_, ?_⟩
  · rw [hpieces, hside]
    exact List.forall_mem_append.2 ⟨h.owner_eq, fun piece hpiece ↦ (hnew piece hpiece).1⟩
  · rw [hpieces, hframe]
    exact List.forall_mem_append.2 ⟨h.frame_eq, fun piece hpiece ↦ (hnew piece hpiece).2⟩
  · have hstruck : lost.length + (strikeOut born lost).length = born.length := by
      rw [← h.pieces_eq, List.length_map]
      exact h.length_eq
    rw [hpieces, List.map_append, h.pieces_eq, strikeOut_append hstruck]
  · rw [hpieces, List.length_append, List.length_append, hlength, length_numbered, ← h.length_eq,
      Nat.add_assoc]
  · have hids : ((numbered p.side p.frame p.nextIndex arrivals).map Piece.entry).map (·.1) =
        (List.range' born.length arrivals.length).map fun n ↦ ⟨p.side, UInt32.ofNat n⟩ := by
      rw [List.map_map, h.nextIndex_eq]
      exact ids_numbered p.side p.frame born.length arrivals
    rw [List.map_append, h.ids_eq, hids, ← List.map_append, List.length_append, hlength, hside,
      List.range_eq_range', List.range_eq_range', ← List.range'_append_1, Nat.zero_add]
  · rw [nextIndex_gain, List.length_append, hlength, h.nextIndex_eq, UInt32.ofNat_add]

theorem erase (h : p.Accounts born lost) {id : PieceId} {piece : Piece}
    (hpiece : p.piece? id = some piece) :
    Accounts born (lost ++ [id]) { p with pieces := p.pieces.eraseP (·.id == id) } where
  owner_eq piece hp := h.owner_eq piece (List.mem_of_mem_eraseP hp)
  frame_eq piece hp := h.frame_eq piece (List.mem_of_mem_eraseP hp)
  pieces_eq := by
    rw [strikeOut_concat, ← h.pieces_eq, List.eraseP_map]
    rfl
  length_eq := by
    have hmem : piece ∈ p.pieces := List.mem_of_find?_eq_some hpiece
    have hpos := List.length_pos_of_mem hmem
    have hlength : (p.pieces.eraseP (·.id == id)).length = p.pieces.length - 1 :=
      List.length_eraseP_of_mem hmem (List.find?_eq_some_iff_append.1 hpiece).1
    have hlost := h.length_eq
    rw [hlength, List.length_append, List.length_singleton]
    omega
  ids_eq := h.ids_eq
  nextIndex_eq := h.nextIndex_eq

theorem keep (h : p.Accounts born lost) {pieces : List Piece}
    (hkept : List.Forall₂ Piece.Persists p.pieces pieces) :
    Accounts born lost { p with pieces := pieces } where
  owner_eq piece hpiece := by
    obtain ⟨before, hbefore, hpersists⟩ := hkept.exists_of_mem_right hpiece
    exact (congrArg PieceId.owner hpersists.id_eq).trans (h.owner_eq before hbefore)
  frame_eq piece hpiece := by
    obtain ⟨before, hbefore, hpersists⟩ := hkept.exists_of_mem_right hpiece
    exact hpersists.frame_eq.trans (h.frame_eq before hbefore)
  pieces_eq := by
    have hentries : List.Forall₂ Eq (pieces.map Piece.entry) (p.pieces.map Piece.entry) := by
      rw [List.forall₂_map_left_iff, List.forall₂_map_right_iff]
      exact hkept.flip.imp fun _ _ hpersists ↦
        congrArg₂ Prod.mk hpersists.id_eq hpersists.kind_eq
    exact ((congrFun₂ List.forall₂_eq_eq_eq _ _).mp hentries).trans h.pieces_eq
  length_eq := by
    rw [← hkept.length_eq]
    exact h.length_eq
  ids_eq := h.ids_eq
  nextIndex_eq := h.nextIndex_eq

/-- What a player accounts for, one action later. -/
theorem step (h : p.Accounts born lost) (hacts : p.Acts p' births losses) :
    p'.Accounts (born ++ births) (lost ++ losses) := by
  cases hacts with
  | gains arrivals =>
    rw [List.append_nil]
    exact h.gain arrivals
  | loses hpiece =>
    rw [List.append_nil]
    exact h.erase hpiece
  | keeps hkept =>
    rw [List.append_nil, List.append_nil]
    exact h.keep hkept

end Accounts

end Player

namespace Player

theorem born_concat (trace : List (Action × Reply)) (action : Action) (reply : Reply) :
    born (trace ++ [(action, reply)]) = born trace ++ action.births reply := by
  rw [born, List.flatMap_append, List.flatMap_singleton]
  rfl

theorem lost_concat (trace : List (Action × Reply)) (action : Action) (reply : Reply) :
    lost (trace ++ [(action, reply)]) = lost trace ++ action.losses reply := by
  rw [lost, List.flatMap_append, List.flatMap_singleton]
  rfl

end Player

/-! ### What an operation keeps -/

namespace World

/-- The action on a side that an operation is, if it is one. -/
def Operation.on? (side : Side) : Operation → Option Player.Action
  | .addPlayer _ => none
  | .act other action => if other = side then some action else none

theorem Operation.on?_act (side : Side) (action : Player.Action) :
    (Operation.act side action).on? side = some action :=
  if_pos rfl

theorem Operation.on?_act_of_ne {side other : Side} (h : other ≠ side) (action : Player.Action) :
    (Operation.act other action).on? side = none :=
  if_neg h

/-- The actions on a side in the course of operations, with the replies to them. -/
def actionsOn (side : Side) (trace : List (Operation × Reply)) : List (Player.Action × Reply) :=
  trace.filterMap fun e ↦ (e.1.on? side).map (·, e.2)

theorem actionsOn_concat (side : Side) (trace : List (Operation × Reply)) (operation : Operation)
    (reply : Reply) : actionsOn side (trace ++ [(operation, reply)]) =
      actionsOn side trace ++ ((operation.on? side).map (·, reply)).toList := by
  rw [actionsOn, List.filterMap_append, List.filterMap_cons]
  cases operation.on? side <;> rfl

/-- What every run keeps of a world on a board: a side that nobody has taken was given nothing, and
each player is in the frame of its side and accounts for its pieces. -/
structure Keeps (board : Board) (w : World) (trace : List (Operation × Reply)) : Prop where
  board_eq : w.board = board
  nodup : (w.players.map (·.side)).Nodup
  absent : ∀ side ∉ w.players.map (·.side),
    Player.born (actionsOn side trace) = [] ∧ Player.lost (actionsOn side trace) = []
  frame_eq : ∀ p ∈ w.players, p.frame = p.side.frame board
  accounts : ∀ p ∈ w.players, p.Accounts (Player.born (actionsOn p.side trace))
    (Player.lost (actionsOn p.side trace))

variable {board : Board} {w : World} {trace : List (Operation × Reply)}

theorem keeps_fresh (board : Board) (registry : Registry) :
    (fresh board registry).Keeps board [] where
  board_eq := rfl
  nodup := .nil
  absent _ _ := ⟨rfl, rfl⟩
  frame_eq _ h := nomatch h
  accounts _ h := nomatch h

/-- An operation that gives a side nothing and takes nothing away from it. -/
theorem born_lost_concat {side : Side} {operation : Operation}
    (trace : List (Operation × Reply)) (reply : Reply)
    (h : ∀ action, operation.on? side = some action →
      action.births reply = [] ∧ action.losses reply = []) :
    Player.born (actionsOn side (trace ++ [(operation, reply)])) =
        Player.born (actionsOn side trace) ∧
      Player.lost (actionsOn side (trace ++ [(operation, reply)])) =
        Player.lost (actionsOn side trace) := by
  rw [actionsOn_concat]
  cases haction : operation.on? side with
  | none => exact ⟨congrArg _ (List.append_nil _), congrArg _ (List.append_nil _)⟩
  | some action =>
    obtain ⟨hbirths, hlosses⟩ := h action haction
    change Player.born (_ ++ [_]) = _ ∧ Player.lost (_ ++ [_]) = _
    rw [Player.born_concat, Player.lost_concat, hbirths, hlosses]
    exact ⟨List.append_nil _, List.append_nil _⟩

namespace Keeps

/-- An operation that changes nothing, gives nothing and takes nothing away. -/
theorem concat (h : w.Keeps board trace) {operation : Operation} {reply : Reply}
    (hnothing : ∀ side action, operation.on? side = some action →
      action.births reply = [] ∧ action.losses reply = []) :
    w.Keeps board (trace ++ [(operation, reply)]) where
  board_eq := h.board_eq
  nodup := h.nodup
  absent side hside := by
    obtain ⟨hborn, hlost⟩ := born_lost_concat trace _ (hnothing side)
    rw [hborn, hlost]
    exact h.absent side hside
  frame_eq := h.frame_eq
  accounts p hp := by
    obtain ⟨hborn, hlost⟩ := born_lost_concat trace _ (hnothing p.side)
    rw [hborn, hlost]
    exact h.accounts p hp

theorem join (h : w.Keeps board trace) {side : Side} (hside : side ∉ w.players.map (·.side)) :
    Keeps board { w with players := w.players ++ [Player.fresh side (side.frame w.board)] }
      trace where
  board_eq := h.board_eq
  nodup := by
    rw [List.map_append]
    exact List.nodup_append_comm.1 (List.nodup_cons.2 ⟨hside, h.nodup⟩)
  absent other hother := by
    refine h.absent other fun hmem ↦ hother ?_
    rw [List.map_append]
    exact List.mem_append_left _ hmem
  frame_eq p hp := by
    rcases List.mem_append.1 hp with hp | hp
    · exact h.frame_eq p hp
    · rw [List.mem_singleton.1 hp, ← h.board_eq]
      rfl
  accounts p hp := by
    rcases List.mem_append.1 hp with hp | hp
    · exact h.accounts p hp
    · obtain rfl := List.mem_singleton.1 hp
      obtain ⟨hborn, hlost⟩ := h.absent side hside
      change Player.Accounts (Player.born (actionsOn side trace))
        (Player.lost (actionsOn side trace)) _
      rw [hborn, hlost]
      exact Player.accounts_fresh side _

theorem addPlayer (h : w.Keeps board trace) (participant : Participant) :
    (w.perform (.addPlayer participant)).1.Keeps board
      (trace ++ [(.addPlayer participant, (w.perform (.addPlayer participant)).2)]) := by
  refine concat ?_ fun _ _ hnone ↦ nomatch hnone
  rw [perform_addPlayer h.nodup]
  split
  · exact h
  · split_ifs with hside
    · exact h
    · exact h.join hside

/-- An action on a player in its place among the others. -/
theorem act {before later : List Player} {p p' : Player} {action : Player.Action} {reply : Reply}
    (h : w.Keeps board trace) (hplayers : w.players = before ++ p :: later)
    (hacts : p.Acts p' (action.births reply) (action.losses reply)) :
    Keeps board { w with players := before ++ p' :: later }
      (trace ++ [(.act p.side action, reply)]) := by
  have hsides : (before ++ p' :: later).map (·.side) = w.players.map (·.side) := by
    rw [hplayers, List.map_append, List.map_append, List.map_cons, List.map_cons, hacts.side_eq]
  -- The others are on the other side, where nothing is done.
  have hothers : ∀ q ∈ before ++ later, q ∈ w.players ∧ p.side ≠ q.side := by
    have hnodup := h.nodup
    rw [hplayers, List.map_append, List.map_cons, List.nodup_middle, List.nodup_cons,
      ← List.map_append] at hnodup
    intro q hq
    refine ⟨?_, fun heq ↦ hnodup.1 (heq ▸ List.mem_map_of_mem hq)⟩
    rw [hplayers]
    exact List.perm_middle.mem_iff.2 (List.mem_cons_of_mem _ hq)
  have hp : p ∈ w.players := by
    rw [hplayers]
    exact List.mem_append_right _ List.mem_cons_self
  have hnothing {side : Side} (hne : p.side ≠ side) := born_lost_concat trace reply
    fun other hsome ↦ nomatch (Operation.on?_act_of_ne hne action).symm.trans hsome
  refine ⟨h.board_eq, hsides ▸ h.nodup, fun side hside ↦ ?_, fun q hq ↦ ?_, fun q hq ↦ ?_⟩
  · change side ∉ (before ++ p' :: later).map (·.side) at hside
    rw [hsides] at hside
    have hne : p.side ≠ side := by
      rintro rfl
      exact hside (List.mem_map_of_mem hp)
    obtain ⟨hborn, hlost⟩ := hnothing hne
    rw [hborn, hlost]
    exact h.absent side hside
  · rcases List.mem_cons.1 (List.perm_middle.mem_iff.1 hq) with rfl | hq
    · rw [hacts.frame_eq, hacts.side_eq]
      exact h.frame_eq p hp
    · exact h.frame_eq q (hothers q hq).1
  · rcases List.mem_cons.1 (List.perm_middle.mem_iff.1 hq) with rfl | hq
    · rw [hacts.side_eq, actionsOn_concat, Operation.on?_act]
      change Player.Accounts (Player.born (_ ++ [_])) (Player.lost (_ ++ [_])) _
      rw [Player.born_concat, Player.lost_concat]
      exact (h.accounts p hp).step hacts
    · obtain ⟨hmem, hne⟩ := hothers q hq
      obtain ⟨hborn, hlost⟩ := hnothing hne
      rw [hborn, hlost]
      exact h.accounts q hmem

end Keeps

theorem Keeps.step (h : w.Keeps board trace) (operation : Operation) :
    (w.perform operation).1.Keeps board (trace ++ [(operation, (w.perform operation).2)]) := by
  cases operation with
  | addPlayer participant => exact h.addPlayer participant
  | act side action =>
    rcases w.perform_act side action with ⟨-, hperform⟩ |
      ⟨before, p, later, hplayers, rfl, hperform⟩
    · rw [hperform]
      exact h.concat fun other done hdone ↦ ⟨done.births_nothing, done.losses_nothing⟩
    · rw [hperform]
      exact h.act hplayers (p.acts_act w.board action)

end World

/-! ### Every run -/

/-- A player without pieces accounts for what it is given and loses in every run of actions. -/
theorem Player.accounts_after (board : Board) (side : Side) (frame : Frame)
    (actions : List Action) : (System.after (act board) (fresh side frame) actions).Accounts
      (born (System.trace (act board) (fresh side frame) actions))
      (lost (System.trace (act board) (fresh side frame) actions)) := by
  refine System.invariant (act board) (fun p trace ↦ p.Accounts (born trace) (lost trace))
    (accounts_fresh side frame) (fun p trace action h ↦ ?_) actions
  rw [born_concat, lost_concat]
  exact h.step (p.acts_act board action)

theorem Player.side_after (board : Board) (p : Player) (actions : List Action) :
    (System.after (act board) p actions).side = p.side :=
  System.invariant (act board) (fun p' _ ↦ p'.side = p.side) rfl
    (fun p' _ action h ↦ (p'.acts_act board action).side_eq.trans h) actions

theorem World.keeps_after (board : Board) (registry : Registry) (operations : List Operation) :
    (System.after perform (fresh board registry) operations).Keeps board
      (System.trace perform (fresh board registry) operations) :=
  System.invariant perform (Keeps board) (keeps_fresh board registry)
    (fun _ _ operation h ↦ h.step operation) operations

/-- The reply to an action on a side is that of its player, if the side has one. -/
theorem World.answers_perform (w : World) (operation : Operation) {side : Side}
    {action : Player.Action} (h : operation.on? side = some action) :
    (w.perform operation).2 = .nothing ∨ action.Answers (w.perform operation).2 := by
  cases operation with
  | addPlayer participant => cases h
  | act other done =>
    by_cases hside : other = side
    · obtain rfl : done = action := Option.some.inj ((if_pos hside).symm.trans h)
      rcases w.perform_act other done with ⟨-, hperform⟩ | ⟨_, p, _, -, -, hperform⟩
      · rw [hperform]
        exact .inl rfl
      · rw [hperform]
        exact .inr (p.answers_act w.board done)
    · cases (if_neg hside).symm.trans h

/-- Every action on a side is answered, in every run. -/
theorem World.answers_trace (w : World) (operations : List Operation) (side : Side) :
    ∀ e ∈ actionsOn side (System.trace perform w operations),
      e.2 = .nothing ∨ e.1.Answers e.2 := by
  refine System.invariant perform
    (fun _ trace ↦ ∀ e ∈ actionsOn side trace, e.2 = .nothing ∨ e.1.Answers e.2)
    (fun _ h ↦ nomatch h) (fun w trace operation h e he ↦ ?_) operations
  rw [actionsOn_concat] at he
  rcases List.mem_append.1 he with he | he
  · exact h e he
  · obtain ⟨action, haction, rfl⟩ := Option.map_eq_some_iff.1 (Option.mem_toList.1 he)
    exact w.answers_perform operation haction

/-- A player loses a piece just if it has one of that identifier. -/
theorem Player.isSome_remove?_iff (p : Player) (id : PieceId) :
    (p.remove? id).isSome ↔ ∃ piece ∈ p.pieces, piece.id = id := by
  rw [remove?_eq, Option.isSome_map, piece?, List.find?_isSome]
  simp only [beq_iff_eq]

/-- What is true of a player on a board after the actions on its side, with the replies to them. -/
structure Player.Sound (board : Board) (trace : List (Action × Reply)) (p : Player) : Prop where
  sits : p.side.Sits board p.frame
  owner_eq : ∀ piece ∈ p.pieces, piece.owner = p.side
  pieceFrame_eq : ∀ piece ∈ p.pieces, piece.frame = p.frame
  /-- The pieces are those that were given less those that were taken away. -/
  pieces_eq : p.pieces.map Piece.entry = strikeOut (born trace) (lost trace)
  /-- They are in the order in which they were given. -/
  sublist : (p.pieces.map Piece.entry).Sublist (born trace)
  /-- Each of those taken away was there. -/
  length_eq : (lost trace).length + p.pieces.length = (born trace).length
  /-- Each action is replied to with what it gave or took away, unless the player was not there. -/
  answers : ∀ e ∈ trace, e.2 = .nothing ∨ e.1.Answers e.2
  isSome_remove?_iff : ∀ id, (p.remove? id).isSome ↔ ∃ piece ∈ p.pieces, piece.id = id
  remove?_eq_none : ∀ id, id.owner ≠ p.side → p.remove? id = none

theorem Player.Accounts.piece?_eq_none {p : Player} {born : List (PieceId × PieceType)}
    {lost : List PieceId} (h : p.Accounts born lost) {id : PieceId} (hid : id.owner ≠ p.side) :
    p.piece? id = none := by
  refine List.find?_eq_none.2 fun piece hpiece heq ↦ hid ?_
  rw [← beq_iff_eq.1 heq]
  exact h.owner_eq piece hpiece

/-- Whatever is done in a world that starts without players, there are at most two players, on
different sides and each in the frame of its side, and every piece is of the side and in the frame
of its player. The pieces of a player are those that it was given less those that were taken away,
each gain issued an identifier for each of its pieces, and no identifier of the other side takes any
away. -/
theorem players_sound (board : Board) (registry : Registry) (operations : List World.Operation) :
    let start := World.fresh board registry
    let w := System.after World.perform start operations
    let trace := System.trace World.perform start operations
    w.players.length ≤ 2 ∧ (w.players.map (·.side)).Nodup ∧
      ∀ p ∈ w.players, p.Sound board (World.actionsOn p.side trace) := by
  intro start w trace
  have hkeeps : w.Keeps board trace := World.keeps_after board registry operations
  refine ⟨?_, hkeeps.nodup, fun p hp ↦ ?_⟩
  · have hlength := World.length_le_two_of_nodup hkeeps.nodup
    rwa [List.length_map] at hlength
  · have haccounts := hkeeps.accounts p hp
    exact {
      sits := Side.sits_iff.2 (hkeeps.frame_eq p hp)
      owner_eq := haccounts.owner_eq
      pieceFrame_eq := haccounts.frame_eq
      pieces_eq := haccounts.pieces_eq
      sublist := haccounts.pieces_eq ▸ strikeOut_sublist _ _
      length_eq := haccounts.length_eq
      answers := World.answers_trace start operations p.side
      isSome_remove?_iff := p.isSome_remove?_iff
      remove?_eq_none := fun id hid ↦ by
        rw [Player.remove?_eq, haccounts.piece?_eq_none hid]
        rfl }

end Waypoints
