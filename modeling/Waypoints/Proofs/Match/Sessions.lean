import Waypoints.Proofs.Match.Order
/-!
# Sessions as runs

Whatever a session asks of a world is a row of operations on it (`World.exists_run_of_answer`), so
that what holds after every run of operations holds throughout every session.
-/

set_option autoImplicit false
set_option relaxedAutoImplicit false

namespace Waypoints

/-- What the first element becomes is all that matters. -/
theorem updateFirst_congr {α : Type} {test : α → Bool} {f g : α → α} {l : List α} {a : α}
    (ha : l.find? test = some a) (h : f a = g a) : updateFirst test f l = updateFirst test g l := by
  obtain ⟨htest, before, later, rfl, hbefore⟩ := List.find?_eq_some_iff_append.1 ha
  have hothers : ∀ b ∈ before, test b = false := fun b hb ↦ by simpa using hbefore b hb
  rw [updateFirst_append hothers htest, updateFirst_append hothers htest, h]

theorem mapIdx_const {α β : Type} (f : α → β) (l : List α) : l.mapIdx (fun _ ↦ f) = l.map f := by
  induction l with
  | nil => rfl
  | cons a l ih =>
    rw [List.mapIdx_cons, List.map_cons]
    exact congrArg _ ih

namespace World

/-! ### Requests to players and pieces -/

theorem onPlayer_fst_congr (w : World) (side : Side) {change change' : Player → Player × Reply}
    (h : ∀ p, (change p).1 = (change' p).1) :
    (w.onPlayer side change).1 = (w.onPlayer side change').1 := by
  unfold onPlayer
  cases w.player? side with
  | none => rfl
  | some p =>
    change w.updatePlayer side _ = w.updatePlayer side _
    rw [h p]

theorem askPiece_fst (w : World) (id : PieceId) (reply : Piece → Reply) :
    (w.askPiece id reply).1 = w := by
  unfold askPiece
  cases w.piece? id <;> rfl

/-- A request that changes a piece is an operation if what it makes of each piece is a change. -/
theorem exists_run_of_onPiece (w : World) (id : PieceId) {change : Piece → Piece × Reply}
    (h : ∀ piece, ∃ edit, (change piece).1 = (piece.edit edit).1) :
    ∃ operations, (w.onPiece id change).1 = System.after perform w operations := by
  cases hpiece : w.piece? id with
  | none =>
    refine ⟨[], ?_⟩
    rw [onPiece, hpiece]
    rfl
  | some piece =>
    obtain ⟨p, hp, hfound⟩ := Option.bind_eq_some_iff.1 hpiece
    obtain ⟨edit, hedit⟩ := h piece
    refine ⟨[.act id.owner (.edit id edit)], ?_⟩
    rw [onPiece, hpiece]
    change w.updatePlayer id.owner _ = (w.onPlayer id.owner _).1
    rw [onPlayer, hp]
    change _ = w.updatePlayer id.owner fun _ ↦ (p.act w.board (.edit id edit)).1
    rw [Player.act, hfound, hedit]
    -- The request changes the player that it comes upon, which is the one that was found.
    have hplayers : updateFirst (·.side == id.owner)
          (·.updatePiece id fun _ ↦ (piece.edit edit).1) w.players =
        updateFirst (·.side == id.owner)
          (fun _ ↦ p.updatePiece id fun _ ↦ (piece.edit edit).1) w.players :=
      updateFirst_congr hp rfl
    exact congrArg (fun players ↦ { w with players := players }) hplayers

/-- A piece that is moved to where it is does not change. -/
theorem exists_edit_replaceMove (board : Board) (index : Option Nat) (piece : Piece) :
    ∃ edit, (replaceMove board index piece).1 = (piece.edit edit).1 := by
  unfold replaceMove
  split
  · exact ⟨.moveTo piece.position, rfl⟩
  · split
    · exact ⟨.moveTo piece.position, rfl⟩
    · next choice _ => exact ⟨.setMove choice, rfl⟩

theorem exists_edit_replacePattern (board : Board) (index : Option Nat) (piece : Piece) :
    ∃ edit, (replacePattern board index piece).1 = (piece.edit edit).1 := by
  unfold replacePattern
  split
  · exact ⟨.moveTo piece.position, rfl⟩
  · split
    · exact ⟨.moveTo piece.position, rfl⟩
    · next choice _ => exact ⟨.setPattern choice, rfl⟩

/-! ### Every request -/

/-- A request does nothing, or what one operation does. -/
theorem exists_run_of_answer (w : World) (request : Request) :
    ∃ operations, (w.answer request).1 = System.after perform w operations := by
  cases request with
  | player | players | pieces | contains => exact ⟨[], rfl⟩
  | moves | patterns | legal | piece | bindings | eval => exact ⟨[], w.askPiece_fst _ _⟩
  | makeMoves id kind | makePatterns id kind =>
    refine ⟨[], ?_⟩
    rw [answer]
    split
    · rfl
    · exact w.askPiece_fst _ _
  | addPlayer participant => exact ⟨[.addPlayer participant], rfl⟩
  | spawn side kind position =>
    rw [answer]
    split
    · exact ⟨[], rfl⟩
    · next kind _ => exact ⟨[.act side (.spawn kind position)], rfl⟩
  | gain side arrivals =>
    rw [answer]
    split
    · exact ⟨[], rfl⟩
    · next arrivals _ => exact ⟨[.act side (.gain arrivals)], rfl⟩
  | place side placements => exact ⟨[.act side (.place w.registry placements)], rfl⟩
  | remove id side => exact ⟨[.act side (.remove id)], rfl⟩
  | shift side step =>
    refine ⟨[.act side (.editEach fun _ piece ↦ [.moveTo (piece.position + step)])], ?_⟩
    refine w.onPlayer_fst_congr side fun p ↦ ?_
    exact congrArg (fun pieces ↦ { p with pieces := pieces }) (mapIdx_const _ _).symm
  | moveTo id position => exact w.exists_run_of_onPiece id fun piece ↦ ⟨.moveTo position, rfl⟩
  | setMove id index => exact w.exists_run_of_onPiece id (exists_edit_replaceMove w.board index)
  | setPattern id index =>
    exact w.exists_run_of_onPiece id (exists_edit_replacePattern w.board index)
  | advance id => exact w.exists_run_of_onPiece id fun piece ↦ ⟨.advance, rfl⟩

/-- A session is a run. -/
theorem exists_run_of_answerAll (w : World) (requests : List Request) :
    ∃ operations, (w.answerAll requests).1 = System.after perform w operations := by
  induction requests generalizing w with
  | nil => exact ⟨[], rfl⟩
  | cons request requests ih =>
    obtain ⟨first, hfirst⟩ := w.exists_run_of_answer request
    obtain ⟨rest, hrest⟩ := ih (w.answer request).1
    refine ⟨first ++ rest, ?_⟩
    rw [System.after_append, ← hfirst]
    exact hrest

/-- Throughout the session of a match the players account for their pieces. -/
theorem exists_keeps_answerAll {config : MatchConfig} {w : World}
    (h : World.setup config = .ok w) (requests : List Request) :
    ∃ trace, (w.answerAll requests).1.Keeps w.board trace := by
  obtain ⟨opening, -, hw⟩ := exists_run_of_setup h
  obtain ⟨operations, hrun⟩ := w.exists_run_of_answerAll requests
  have hkeeps := keeps_after w.board w.registry (opening ++ operations)
  rw [System.after_append, hw, ← hrun] at hkeeps
  exact ⟨_, hkeeps⟩

/-- Throughout the session of a match the pieces of the first side come first. -/
theorem inOrder_answerAll {config : MatchConfig} {w : World} (h : World.setup config = .ok w)
    (requests : List Request) : (w.answerAll requests).1.InOrder := by
  obtain ⟨operations, hrun⟩ := w.exists_run_of_answerAll requests
  rw [hrun]
  exact inOrder_of_setup h operations

end World

end Waypoints
