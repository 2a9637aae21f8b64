import Waypoints.Match.Piece
import Waypoints.Proofs.Evaluation.Comparison
/-!
# Two pieces compared

A comparison of evaluations carries over to the moves and the patterns of two pieces of one type
(`Comparison.Compares`). Where its sites include the formulas of the type, both pieces have as many
moves, of the same types in the same order, with related waypoints, or both fail alike
(`Comparison.Compares.agree_possibleMoves`, `Comparison.Compares.agree_possiblePatterns`).
-/

set_option autoImplicit false
set_option relaxedAutoImplicit false

namespace Waypoints

/-- Moves of one type with related waypoints. -/
def Move.Related (landed : Point → Point → Prop) (m m' : Move) : Prop :=
  m.kind = m'.kind ∧ List.Forall₂ landed m.path m'.path

/-- Patterns of one type, of which as much is reached, with related waypoints. -/
def Pattern.Related (landed : Point → Point → Prop) (p p' : Pattern) : Prop :=
  p.kind = p'.kind ∧ p.reached = p'.reached ∧ List.Forall₂ landed p.path p'.path

namespace Comparison

/-- A comparison is one of the evaluations for two pieces on a board, and takes related points of
their frames to world points that are related by `landed`. -/
structure Compares (C : Comparison) (p p' : Piece) (board : Board) (anyOk : Bool)
    (landed : Point → Point → Prop) : Prop where
  lawful : C.Lawful
  slack : C.slack = 0
  left : C.left = p.bindings board anyOk
  right : C.right = p'.bindings board anyOk
  toWorld {a a' : Point} : Point.Related C.numbers a a' →
    landed (p.frame.toWorld a) (p'.frame.toWorld a')

namespace Compares

variable {C : Comparison} {p p' : Piece} {board : Board} {anyOk : Bool}
  {landed : Point → Point → Prop}

/-- The world paths of a formula agree. -/
theorem agree_worldPaths (h : C.Compares p p' board anyOk landed) {f : Formula}
    (hsite : C.sites (.start f.expr C.left)) :
    Except.Agrees C.Excuses (ExprError.Related C.numbers) (List.Forall₂ (List.Forall₂ landed))
      (f.worldPaths p.frame p.position board anyOk)
      (f.worldPaths p'.frame p'.position board anyOk) := by
  have hpaths := h.lawful.agree_relativePaths h.slack hsite
  rw [h.left, h.right] at hpaths
  refine hpaths.bind fun rows rows' _ _ hrows ↦ ?_
  refine List.forall₂_map_left_iff.2 (List.forall₂_map_right_iff.2 ?_)
  refine hrows.imp fun path path' hpath ↦ ?_
  refine List.forall₂_map_left_iff.2 (List.forall₂_map_right_iff.2 ?_)
  exact hpath.imp fun _ _ ↦ h.toWorld

/-- The world paths of formulas agree. -/
theorem agree_paths (h : C.Compares p p' board anyOk landed) {formulas : List Formula}
    (hsites : ∀ f ∈ formulas, C.sites (.start f.expr C.left)) :
    Except.Agrees C.Excuses (ExprError.Related C.numbers) (List.Forall₂ (List.Forall₂ landed))
      (p.paths board formulas anyOk) (p'.paths board formulas anyOk) :=
  .mapM_flatten fun f hf ↦ h.agree_worldPaths (hsites f hf)

/-- The moves of two pieces of one type agree. -/
theorem agree_possibleMoves (h : C.Compares p p' board false landed) (hkind : p'.kind = p.kind)
    (hsites : ∀ kind ∈ p.kind.moves, ∀ f ∈ kind.formulas, C.sites (.start f.expr C.left)) :
    Except.Agrees C.Excuses (ExprError.Related C.numbers) (List.Forall₂ (Move.Related landed))
      (p.possibleMoves board) (p'.possibleMoves board) := by
  unfold Piece.possibleMoves
  rw [hkind]
  refine .mapM_flatten fun kind hmem ↦ ?_
  refine (h.agree_paths (hsites kind hmem)).bind fun paths paths' _ _ hpaths ↦ ?_
  refine List.forall₂_map_left_iff.2 (List.forall₂_map_right_iff.2 ?_)
  exact hpaths.imp fun path path' hpath ↦ ⟨rfl, hpath⟩

/-- The patterns of two pieces of one type agree. -/
theorem agree_possiblePatterns (h : C.Compares p p' board true landed) (hkind : p'.kind = p.kind)
    (hsites : ∀ kind ∈ p.kind.patterns, ∀ f ∈ kind.formulas, C.sites (.start f.expr C.left)) :
    Except.Agrees C.Excuses (ExprError.Related C.numbers) (List.Forall₂ (Pattern.Related landed))
      (p.possiblePatterns board) (p'.possiblePatterns board) := by
  unfold Piece.possiblePatterns
  rw [hkind]
  refine .mapM_flatten fun kind hmem ↦ ?_
  refine (h.agree_paths (hsites kind hmem)).bind fun paths paths' _ _ hpaths ↦ ?_
  refine List.forall₂_map_left_iff.2 (List.forall₂_map_right_iff.2 ?_)
  exact hpaths.imp fun path path' hpath ↦ ⟨rfl, rfl, hpath⟩

end Compares

end Comparison

end Waypoints
