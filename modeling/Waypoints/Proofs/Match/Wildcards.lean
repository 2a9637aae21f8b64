import Waypoints.Proofs.Evaluation.Wildcards
import Waypoints.Proofs.Match.Compared
import Waypoints.Proofs.Match.Frames
import Waypoints.Proofs.Match.Setup
/-!
# Wildcards in moves

Moves may not use `any`, and the frames of an accepted match take numbers to numbers. So the moves
of a piece are free of wildcards wherever its position is, and a position is wherever the placement
is (`numeric_possibleMoves_iff`). No placement is checked for this, so a match that places a piece
at a NaN is accepted, and the moves of the piece have wildcards (`not_numeric_possibleMoves`).
-/

set_option autoImplicit false
set_option relaxedAutoImplicit false

namespace Waypoints

variable {board : Board}

/-- What a board binds for a place without wildcards has none. -/
theorem Bindings.numeric_ofPlace {place : Point} (h : place.Numeric) (anyOk : Bool) :
    (Bindings.ofPlace place board anyOk).Numeric := by
  have hextent (n : UInt32) : n.toFloat.isNaN = false := by
    have hn := n.toNat_lt
    rw [Number.toFloat_eq_ofInt]
    exact Number.isNaN_of_isFinite (Number.isFinite_ofInt (by omega))
  exact ⟨h.1, h.2, hextent _, hextent _⟩

/-- A piece that stands at a place without wildcards has moves without wildcards. -/
theorem Piece.Stands.numeric_possibleMoves {p : Piece} {side : Side} {kind : PieceType}
    {place : Point} (hp : p.Stands side board kind place) (hplace : place.Numeric)
    {moves : List Move} (h : p.possibleMoves board = .ok moves) :
    ∀ m ∈ moves, ∀ point ∈ m.path, point.Numeric := by
  have hplayer : p.playerPosition.Numeric := by
    rw [hp.playerPosition_eq, Frame.numeric_toPlayer, Frame.numeric_toWorld]
    exact hplace
  have hcompares : (Comparison.numeric (p.bindings board false)).Compares p p board false
      fun a _ ↦ a.Numeric :=
    { lawful := Comparison.numeric_lawful (Bindings.numeric_ofPlace hplayer false)
      slack := rfl
      left := rfl
      right := rfl
      toWorld := fun ⟨hx, hy⟩ ↦ by
        rw [hp.frame]
        exact (Frame.numeric_toWorld side board _).2 ⟨hx.2, hy.2⟩ }
  have hagree := hcompares.agree_possibleMoves rfl fun _ _ f _ ↦
    ⟨Expr.isNaN_of_parse f.parsed, .inl rfl⟩
  rw [h] at hagree
  intro m hm
  have hpath : List.Forall₂ (fun a _ ↦ a.Numeric) m.path m.path :=
    (List.forall₂_same.1 hagree m hm).2
  exact fun point hpoint ↦ List.forall₂_same.1 hpath point hpoint

/-- The formula `(x, y)`, by which a piece moves to where it is. -/
def placeFormula : Formula :=
  ⟨_, pair "x" "y", Expr.parse_spell (show ∀ t ∈ pairTokens "x" "y", t.IsWord by decide)
    (phrase_pair (by decide) (by decide)) (by decide)⟩

/-- A piece that moves to where it is shows whether its place has a wildcard. -/
theorem Piece.Stands.numeric_of_placeFormula {p : Piece} {side : Side} {place : Point}
    (hp : p.Stands side board (.ofFormula placeFormula) place)
    (h : ∀ moves, p.possibleMoves board = .ok moves → ∀ m ∈ moves, ∀ point ∈ m.path,
      point.Numeric) : place.Numeric := by
  have hmoves := possibleMoves_ofFormula board placeFormula hp.kind rfl
  have hpoint : (p.frame.toWorld p.playerPosition).Numeric :=
    h _ hmoves _ List.mem_cons_self _ List.mem_cons_self
  rw [hp.playerPosition_eq, hp.frame] at hpoint
  rwa [Frame.numeric_toWorld, Frame.numeric_toPlayer, Frame.numeric_toWorld] at hpoint

/-- The moves in an accepted match are free of wildcards, whatever the types of the pieces, exactly
if its placements are. -/
theorem numeric_possibleMoves_iff {config : MatchConfig} {w : World}
    (h : World.setup config = .ok w) : (∀ placement ∈ config.setup, placement.place.Numeric) ↔
      ∀ p ∈ w.pieces, ∀ kind moves, { p with kind := kind }.possibleMoves w.board = .ok moves →
        ∀ m ∈ moves, ∀ point ∈ m.path, point.Numeric := by
  constructor
  · intro hplacements p hp kind moves hmoves
    obtain ⟨placement, hplacement, side, hstands⟩ := stands_of_piece h hp
    exact (hstands.withKind kind).numeric_possibleMoves (hplacements placement hplacement) hmoves
  · intro hall placement hplacement
    obtain ⟨p, hp, hstands⟩ := exists_piece_of_placement h hplacement
    exact (hstands.withKind _).numeric_of_placeFormula (hall p hp _)

/-- A piece on the third column and the fourth row. -/
theorem numeric_possibleMoves_placeFormula : ∃ w,
    World.setup (.ofFormula ⟨8, 8, by decide, by decide⟩ placeFormula ⟨2, 3⟩) = .ok w ∧
      ∀ p ∈ w.pieces, ∀ moves, p.possibleMoves w.board = .ok moves →
        ∀ m ∈ moves, ∀ point ∈ m.path, point.Numeric := by
  obtain ⟨w, hsetup, -⟩ := setup_ofFormula ⟨8, 8, by decide, by decide⟩ placeFormula ⟨2, 3⟩
  refine ⟨w, hsetup, fun p hp ↦ (numeric_possibleMoves_iff hsetup).1 ?_ p hp p.kind⟩
  exact List.forall_mem_singleton.2 ⟨rfl, rfl⟩

/-- Moves of accepted matches can have wildcards. -/
theorem not_numeric_possibleMoves : ¬∀ config w, World.setup config = .ok w → ∀ p ∈ w.pieces,
    ∀ moves, p.possibleMoves w.board = .ok moves → ∀ m ∈ moves, ∀ point ∈ m.path,
      point.Numeric := by
  intro hall
  obtain ⟨board⟩ : Nonempty Board := ⟨⟨8, 8, by decide, by decide⟩⟩
  obtain ⟨w, hsetup, rfl, hpieces⟩ := setup_ofFormula board placeFormula ⟨wildcard, 0⟩
  obtain ⟨p, hp, hstands⟩ := hpieces .one
  have hplace := hstands.numeric_of_placeFormula (hall _ w hsetup p (mem_pieces_of_piece? hp))
  cases hplace.1

end Waypoints
