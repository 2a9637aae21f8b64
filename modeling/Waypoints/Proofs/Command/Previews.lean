import Mathlib.Algebra.GroupWithZero.Nat
import Waypoints.Command.Outcome
import Waypoints.Proofs.Match.Setup
/-!
# Checks and previews

A check finds what a preview of both sides with their patterns shows: it passes just if there is
such a preview, and prints how many pieces, moves and patterns are in it (`check_agrees_preview`).
The preview of both sides is that of the first followed by that of the second.
-/

set_option autoImplicit false
set_option relaxedAutoImplicit false

namespace Waypoints

namespace MatchView

/-- How many moves a view shows. -/
def moveCount (v : MatchView) : Nat :=
  (v.pieces.map fun piece ↦ piece.moves.length).sum

/-- How many patterns a view shows. -/
def patternCount (v : MatchView) : Nat :=
  (v.pieces.map fun piece ↦ (piece.patterns.getD []).length).sum

/-- How many pieces, moves and patterns a view shows. -/
def counts (v : MatchView) : OpeningCounts :=
  ⟨v.pieces.length, v.moveCount, v.patternCount⟩

/-- A summary has four lines before the pieces and, for each of them, one for the piece, one for
each of its moves and patterns, and an empty one. -/
theorem length_summary (v : MatchView) :
    v.summary.length = 4 + (2 * v.pieces.length + v.moveCount + v.patternCount) := by
  have hpiece (piece : PieceView) : (piece.summary v.board).length =
      2 + (piece.moves.length + (piece.patterns.getD []).length) := by
    simp only [PieceView.summary, List.length_append, List.length_map, List.length_singleton]
    omega
  rw [summary, List.length_append, List.length_flatMap, moveCount, patternCount]
  simp only [hpiece]
  congr 1
  induction v.pieces with
  | nil => rfl
  | cons piece pieces ih =>
    simp only [List.map_cons, List.sum_cons, List.length_cons, ih]
    omega

end MatchView

/-- What is wrong with a match that has no preview, whichever piece shows it. -/
def PreviewError.cause : PreviewError → MatchError
  | setup e => .config e
  | moves _ e => .expr e
  | patterns _ e => .expr e

/-! ### Pieces -/

theorem legalMoves_all (p : Piece) (board : Board) :
    p.legalMoves board .all = p.possibleMoves board := by
  unfold Piece.legalMoves
  cases p.possibleMoves board with
  | error e => rfl
  | ok moves => exact congrArg Except.ok (List.filter_eq_self.2 fun _ _ ↦ rfl)

/-- The view shows the moves and the patterns of a piece. -/
def PieceView.Shows (choices : List Move × List Pattern) (v : PieceView) : Prop :=
  v.moves = choices.1 ∧ v.patterns = some choices.2

/-- A piece has a view with patterns just if it has choices, and these are shown. -/
theorem agrees_choices (board : Board) (p : Piece) :
    (p.choices board).Agrees (fun _ ↦ False) (fun e e' ↦ e'.cause = .expr e)
      PieceView.Shows (p.view board true) := by
  unfold Piece.choices Piece.view
  rw [legalMoves_all]
  rcases p.possibleMoves board with e | moves
  · exact .inr rfl
  · rcases p.possiblePatterns board with e | patterns
    · exact .inr rfl
    · exact ⟨rfl, rfl⟩

/-- The view of a piece is of that piece. -/
theorem piece_of_view {board : Board} {withPatterns : Bool} {p : Piece} {v : PieceView}
    (h : p.view board withPatterns = .ok v) : v.piece = p := by
  obtain ⟨moves, -, hv⟩ := Except.exists_of_bind_eq_ok h
  cases withPatterns with
  | false =>
    cases hv
    rfl
  | true =>
    obtain ⟨patterns, -, heq⟩ := Except.exists_of_bind_eq_ok hv
    cases heq
    rfl

/-! ### Worlds -/

theorem piecesOf_none (w : World) : w.piecesOf none = w.pieces :=
  List.filter_eq_self.2 fun _ _ ↦ rfl

theorem counts_of_shows {board : Board} {choices : List (List Move × List Pattern)}
    {views : List PieceView} (h : List.Forall₂ PieceView.Shows choices views) :
    MatchView.counts ⟨board, views⟩ =
      ⟨choices.length, (choices.flatMap (·.1)).length, (choices.flatMap (·.2)).length⟩ := by
  have hmoves : List.Forall₂ Eq (choices.flatMap (·.1)) (views.flatMap (·.moves)) :=
    List.rel_flatMap h fun _ _ hshows ↦ List.forall₂_eq_eq_eq ▸ hshows.1.symm
  have hpatterns : List.Forall₂ Eq (choices.flatMap (·.2)) (views.flatMap (·.patterns.getD [])) :=
    List.rel_flatMap h fun _ _ hshows ↦ List.forall₂_eq_eq_eq ▸ (by rw [hshows.2]; rfl)
  rw [h.length_eq, hmoves.length_eq, hpatterns.length_eq, List.length_flatMap, List.length_flatMap]
  rfl

/-- The counts of a world are those of its view with patterns. -/
theorem agrees_counts (w : World) :
    w.counts.Agrees (fun _ ↦ False) (fun e e' ↦ e'.cause = .expr e)
      (fun opening view ↦ view.counts = opening) (w.view true none) := by
  unfold World.counts World.view
  rw [piecesOf_none]
  have hself : List.Forall₂ Eq w.pieces w.pieces := List.forall₂_same.2 fun _ _ ↦ rfl
  have hviews : (w.pieces.mapM (Piece.choices w.board)).Agrees (fun _ ↦ False)
      (fun e e' ↦ e'.cause = .expr e) (List.Forall₂ PieceView.Shows)
      (w.pieces.mapM (Piece.view w.board true)) :=
    Except.Agrees.mapM hself fun p _ heq ↦ heq ▸ agrees_choices w.board p
  refine hviews.bind fun choices views hchoices _ hshows ↦ ?_
  rw [(Except.mapM_eq_ok_iff.1 hchoices).length_eq]
  exact counts_of_shows hshows

/-- What a check finds in an opening position is what the preview of both sides with their patterns
shows, and neither fails without the other, with the same cause. -/
theorem agrees_openingCounts (config : MatchConfig) :
    config.openingCounts.Agrees (fun _ ↦ False) (fun e e' ↦ e'.cause = e)
      (fun opening view ↦ view.counts = opening) (config.preview true none) := by
  unfold MatchConfig.openingCounts MatchConfig.preview
  rcases World.setup config with e | w
  · exact .inr rfl
  · exact (agrees_counts w).mapError (fun _ h ↦ h) fun _ _ h ↦ h

/-! ### The pieces of a side -/

section Sides

variable {config : MatchConfig} {w : World}

/-- All pieces of a player are of the player's side. -/
theorem filter_of_placed {registry : Registry} {board : Board} {placements : List Placement}
    {side : Side} {player : Player} (h : player.Placed registry board placements side)
    (wanted : Side) : player.pieces.filter (fun p ↦ (some wanted).all (p.owner == ·)) =
      if side = wanted then player.pieces else [] := by
  have howner : ∀ p ∈ player.pieces, p.owner = side := by
    obtain ⟨arrivals, hpieces, -⟩ := h.pieces_eq
    intro p hp
    rw [hpieces] at hp
    obtain ⟨-, -, number, rfl⟩ := mem_numbered hp
    rfl
  split
  · next heq => exact List.filter_eq_self.2 fun p hp ↦ beq_iff_eq.2 ((howner p hp).trans heq)
  · next hne =>
    refine List.filter_eq_nil_iff.2 fun p hp hwanted ↦ hne ?_
    exact (howner p hp).symm.trans (beq_iff_eq.1 hwanted)

/-- The pieces of the first side, then those of the second, are all pieces. -/
theorem piecesOf_append (h : World.setup config = .ok w) :
    w.piecesOf (some .one) ++ w.piecesOf (some .two) = w.piecesOf none := by
  obtain ⟨-, -, one, two, hplayers, hone, htwo⟩ := players_of_setup h
  have hpieces : w.pieces = one.pieces ++ two.pieces := by
    rw [World.pieces, hplayers, List.flatMap_cons, List.flatMap_singleton]
  have hpiecesOf (wanted : Side) : w.piecesOf (some wanted) =
      (if Side.one = wanted then one.pieces else []) ++
        if Side.two = wanted then two.pieces else [] := by
    rw [World.piecesOf, hpieces, List.filter_append, filter_of_placed hone, filter_of_placed htwo]
  rw [hpiecesOf .one, hpiecesOf .two, piecesOf_none, hpieces]
  exact congrArg (· ++ two.pieces) (List.append_nil one.pieces)

theorem view_eq_ok_iff (h : World.setup config = .ok w) (withPatterns : Bool) (view : MatchView) :
    w.view withPatterns none = .ok view ↔ ∃ one two, w.view withPatterns (some .one) = .ok one ∧
      w.view withPatterns (some .two) = .ok two ∧
      view = ⟨one.board, one.pieces ++ two.pieces⟩ := by
  unfold World.view
  rw [← piecesOf_append h, List.mapM_append]
  rcases (w.piecesOf (some .one)).mapM (Piece.view w.board withPatterns) with e | one
  · constructor
    · exact fun h ↦ nomatch h
    · rintro ⟨_, _, h, -⟩
      cases h
  · rcases (w.piecesOf (some .two)).mapM (Piece.view w.board withPatterns) with e | two
    · constructor
      · exact fun h ↦ nomatch h
      · rintro ⟨_, _, -, h, -⟩
        cases h
    · constructor
      · intro h
        cases h
        exact ⟨_, _, rfl, rfl, rfl⟩
      · rintro ⟨_, _, hone, htwo, rfl⟩
        cases hone
        cases htwo
        rfl

theorem preview_eq_ok_iff (config : MatchConfig) (withPatterns : Bool) (view : MatchView) :
    config.preview withPatterns none = .ok view ↔
      ∃ one two, config.preview withPatterns (some .one) = .ok one ∧
        config.preview withPatterns (some .two) = .ok two ∧
        view = ⟨one.board, one.pieces ++ two.pieces⟩ := by
  unfold MatchConfig.preview
  cases hsetup : World.setup config with
  | error e =>
    constructor
    · exact fun h ↦ nomatch h
    · rintro ⟨_, _, h, -⟩
      cases h
  | ok w => exact view_eq_ok_iff hsetup withPatterns view

/-- A preview of a side shows pieces of that side. -/
theorem owner_of_preview {withPatterns : Bool} {side : Side} {view : MatchView}
    (h : config.preview withPatterns (some side) = .ok view) :
    ∀ v ∈ view.pieces, v.piece.owner = side := by
  obtain ⟨w, -, hview⟩ := Except.exists_of_bind_eq_ok h
  obtain ⟨views, hviews, heq⟩ := Except.exists_of_bind_eq_ok hview
  cases heq
  intro v hv
  obtain ⟨p, hmem, hp⟩ := (Except.mapM_eq_ok_iff.1 hviews).exists_of_mem_right hv
  rw [piece_of_view hp]
  exact beq_iff_eq.1 (List.mem_filter.1 hmem).2

end Sides

/-! ### The two commands -/

theorem openingCounts_eq_ok_iff (config : MatchConfig) (opening : OpeningCounts) :
    config.openingCounts = .ok opening ↔
      ∃ view, config.preview true none = .ok view ∧ view.counts = opening := by
  have hagrees := agrees_openingCounts config
  constructor
  · intro h
    rw [h] at hagrees
    rcases hview : config.preview true none with e | view
    · rw [hview] at hagrees
      exact hagrees.elim
    · rw [hview] at hagrees
      exact ⟨view, rfl, hagrees⟩
  · rintro ⟨view, hview, rfl⟩
    rw [hview] at hagrees
    rcases hopening : config.openingCounts with e | opening
    · rw [hopening] at hagrees
      exact hagrees.elim
    · rw [hopening] at hagrees
      exact congrArg Except.ok hagrees.symm

/-- The types of a match with an opening position can be made. -/
theorem exists_registry_of_openingCounts {config : MatchConfig} {opening : OpeningCounts}
    (h : config.openingCounts = .ok opening) : ∃ r, Registry.ofConfig config = .ok r := by
  obtain ⟨w, hw, -⟩ := Except.exists_of_bind_eq_ok h
  cases hsetup : World.setup config with
  | error e =>
    rw [hsetup] at hw
    cases hw
  | ok w' => exact ⟨_, (exists_place_of_setup hsetup).2.1⟩

/-- A check passes with what is in the opening position, and with the types of the match. -/
theorem check_of_openingCounts {config : MatchConfig} {opening : OpeningCounts}
    (h : config.openingCounts = .ok opening) :
    ∃ r, Registry.ofConfig config = .ok r ∧ config.check = .passed (.ofRegistry r) opening := by
  obtain ⟨r, hr⟩ := exists_registry_of_openingCounts h
  refine ⟨r, hr, ?_⟩
  rw [MatchConfig.check, hr, h]

/-- A check passes just if there is an opening position whose moves and patterns can be made. -/
theorem check_eq_passed_iff (config : MatchConfig) (opening : OpeningCounts) :
    (∃ content, config.check = .passed content opening) ↔ config.openingCounts = .ok opening := by
  constructor
  · rintro ⟨content, h⟩
    unfold MatchConfig.check at h
    split at h
    · cases h
    · split at h
      · cases h
      · next hopening =>
        cases h
        exact hopening
  · intro h
    obtain ⟨r, -, hcheck⟩ := check_of_openingCounts h
    exact ⟨_, hcheck⟩

theorem CheckResult.failure_eq_none_iff (result : CheckResult) :
    result.outcome.failure = none ↔ ∃ content opening, result = .passed content opening := by
  cases result with
  | passed content opening => exact ⟨fun _ ↦ ⟨content, opening, rfl⟩, fun _ ↦ rfl⟩
  | _ =>
    constructor
    · exact fun h ↦ nomatch h
    · rintro ⟨content, opening, h⟩
      cases h

theorem failure_previewOutcome_eq_none_iff (config : MatchConfig) (options : PreviewOptions) :
    (previewOutcome config options).failure = none ↔
      ∃ view, config.preview options.patterns options.side = .ok view := by
  unfold previewOutcome
  cases config.preview options.patterns options.side with
  | error e =>
    constructor
    · exact fun h ↦ nomatch h
    · rintro ⟨view, h⟩
      cases h
  | ok view => exact ⟨fun _ ↦ ⟨view, rfl⟩, fun _ ↦ rfl⟩

/-- Every piece in a preview with patterns has them. -/
theorem isSome_patterns_of_preview {config : MatchConfig} {side : Option Side} {view : MatchView}
    (h : config.preview true side = .ok view) : ∀ v ∈ view.pieces, v.patterns.isSome := by
  obtain ⟨w, -, hview⟩ := Except.exists_of_bind_eq_ok h
  obtain ⟨views, hviews, heq⟩ := Except.exists_of_bind_eq_ok hview
  cases heq
  intro v hv
  obtain ⟨p, -, hp⟩ := (Except.mapM_eq_ok_iff.1 hviews).exists_of_mem_right hv
  obtain ⟨moves, -, hpatterns⟩ := Except.exists_of_bind_eq_ok hp
  obtain ⟨patterns, -, heq⟩ := Except.exists_of_bind_eq_ok hpatterns
  cases heq
  rfl

/-- A check passes just if there is a preview of both sides with their patterns, in whatever format.
It then prints how many types the match has and how many pieces, moves and patterns the preview
shows, and the summary of the preview has as many lines as these take. There is a preview of both
sides just if there is one of either, and it shows the pieces of the first side and then those of
the second. -/
theorem check_agrees_preview (config : MatchConfig) :
    (∀ format, config.check.outcome.failure = none ↔
        (previewOutcome config ⟨format, true, none⟩).failure = none) ∧
      (∀ view, config.preview true none = .ok view →
        (∃ registry, Registry.ofConfig config = .ok registry ∧
          config.check.outcome = ⟨[
            "Content: " ++ toString registry.moves.entries.length ++ " move types, " ++
              toString registry.patterns.entries.length ++ " pattern types, " ++
              toString registry.pieces.entries.length ++ " piece types",
            "Opening: " ++ toString view.pieces.length ++ " pieces, " ++
              toString view.moveCount ++ " moves, " ++ toString view.patternCount ++ " patterns",
            "Content OK"], [], none⟩) ∧
        (∀ v ∈ view.pieces, v.patterns.isSome) ∧
        (previewOutcome config ⟨.summary, true, none⟩).printed.length =
          4 + (2 * view.pieces.length + view.moveCount + view.patternCount)) ∧
      ∀ withPatterns view, config.preview withPatterns none = .ok view ↔
        ∃ one two, config.preview withPatterns (some .one) = .ok one ∧
          config.preview withPatterns (some .two) = .ok two ∧
          (∀ v ∈ one.pieces, v.piece.owner = .one) ∧ (∀ v ∈ two.pieces, v.piece.owner = .two) ∧
          view = ⟨one.board, one.pieces ++ two.pieces⟩ := by
  refine ⟨fun format ↦ ?_, fun view hview ↦ ⟨?_, isSome_patterns_of_preview hview, ?_⟩,
    fun withPatterns view ↦ ?_⟩
  · rw [CheckResult.failure_eq_none_iff, failure_previewOutcome_eq_none_iff, exists_comm]
    simp only [check_eq_passed_iff, openingCounts_eq_ok_iff]
    exact ⟨fun ⟨_, view, h, _⟩ ↦ ⟨view, h⟩, fun ⟨view, h⟩ ↦ ⟨view.counts, view, h, rfl⟩⟩
  · obtain ⟨r, hr, hcheck⟩ :=
      check_of_openingCounts ((openingCounts_eq_ok_iff config view.counts).2 ⟨view, hview, rfl⟩)
    refine ⟨r, hr, ?_⟩
    rw [hcheck]
    rfl
  · rw [previewOutcome, hview]
    exact view.length_summary
  · rw [preview_eq_ok_iff]
    constructor
    · rintro ⟨one, two, hone, htwo, heq⟩
      exact ⟨one, two, hone, htwo, owner_of_preview hone, owner_of_preview htwo, heq⟩
    · rintro ⟨one, two, hone, htwo, -, -, heq⟩
      exact ⟨one, two, hone, htwo, heq⟩

end Waypoints
