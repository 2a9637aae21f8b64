import Waypoints.Match.Piece
import Waypoints.Proofs.Evaluation.Comparison
import Waypoints.Proofs.Evaluation.Copies
import Waypoints.Proofs.Number.Binary64
import Waypoints.Proofs.Parsing.Literals
/-!
# Where wildcards come from

Two comparisons of evaluations. Where no NaN is bound and `any` is not permitted or not written, an
evaluation next to itself keeps NaNs out of every number it handles, so that no value has one at any
depth (`isNaN_of_evaluate`). And an evaluation without permission for `any` next to the same one
with it goes the same way up to the first use of `any` (`permission_adds_results`).
-/

set_option autoImplicit false
set_option relaxedAutoImplicit false

namespace Waypoints

/-! ### Equal numbers -/

/-- Equal numbers neither of which is a NaN. -/
def SameNumber (x y : Float) : Prop :=
  x = y ∧ x.isNaN = false

namespace Number

theorem isFinite_of_isWhole {x : Float} (h : isWhole x) : x.isFinite :=
  (Bool.and_eq_true_iff.1 h).1

theorem isNaN_of_isFinite {x : Float} (h : x.isFinite) : x.isNaN = false := by
  have hform : x.toModel.unpack.isFinite := h
  change x.toModel.unpack.isNaN = false
  revert hform
  cases x.toModel.unpack with
  | notANumber => exact fun h ↦ nomatch h
  | _ => exact fun _ ↦ rfl

/-- The items of a progression of whole numbers that moves are no NaNs, even where they overflow. -/
theorem isNaN_item {start step : Float} (hstart : isWhole start) (hstep : isWhole step)
    (hmoves : (step == 0) = false) (i : Nat) : (start + step * ofNat i).isNaN = false := by
  rw [isNaN_add_of_isFinite (isFinite_of_isWhole hstart),
    isNaN_mul_of_isFinite (isFinite_of_isWhole hstep) hmoves, isNaN_ofNat]

end Number

theorem congruent_sameNumber : Congruent SameNumber where
  zero := ⟨rfl, rfl⟩
  one := ⟨rfl, rfl⟩
  neg := fun ⟨heq, hnan⟩ ↦ ⟨congrArg _ heq, (Number.isNaN_neg _).trans hnan⟩
  beq := fun ha hb ↦ congruent_eq.beq ha.1 hb.1
  lt := fun ha hb ↦ congruent_eq.lt ha.1 hb.1
  le := fun ha hb ↦ congruent_eq.le ha.1 hb.1
  isWhole := fun ha ↦ congruent_eq.isWhole ha.1
  span := fun ⟨hstart, hstop, hstep⟩ hmoves ↦
    congruent_eq.span ⟨hstart.1, hstop.1, hstep.1⟩ hmoves
  item := fun i ⟨hstart, hstop, hstep⟩ hw hw' hmoves ↦
    ⟨congruent_eq.item i ⟨hstart.1, hstop.1, hstep.1⟩ hw hw' hmoves,
      Number.isNaN_item hw hw' hmoves i⟩

/-! ### Evaluations without wildcards -/

/-- The board binds no NaN. -/
def Bindings.Numeric (b : Bindings) : Prop :=
  b.x.isNaN = false ∧ b.y.isNaN = false ∧ b.w.isNaN = false ∧ b.h.isNaN = false

/-- Operators on numbers that are no NaNs give no NaN. -/
theorem BinaryOp.isNaN_of_arithmetic {op : BinaryOp} {a b result : Float} (ha : a.isNaN = false)
    (hb : b.isNaN = false) (h : op.arithmetic a b = .ok result) : result.isNaN = false := by
  unfold BinaryOp.arithmetic at h
  cases hcompute : op.compute a b with
  | error fault =>
    rw [hcompute] at h
    cases h
  | ok r =>
    rw [hcompute] at h
    change (if r.isNaN && !a.isNaN && !b.isNaN then Except.error _ else .ok r) = .ok result at h
    rw [ha, hb] at h
    cases hr : r.isNaN with
    | false =>
      rw [hr] at h
      cases h
      exact hr
    | true =>
      rw [hr] at h
      cases h

namespace Comparison

/-- An evaluation next to itself, at places where no literal is a NaN and `any` is not permitted or
not written. -/
def numeric (b : Bindings) : Comparison where
  left := b
  right := b
  numbers := SameNumber
  excused _ := True
  slack := 0
  sites p := (p.expr.Literals fun value ↦ value.isNaN = false) ∧
    (b.anyOk = false ∨ ¬p.expr.Contains (.name "any"))

theorem numeric_lawful {b : Bindings} (hb : b.Numeric) : (numeric b).Lawful where
  congruent := congruent_sameNumber
  budget := .inl rfl
  calls := by
    rintro p q ⟨hliterals, hany⟩ hcalls
    refine ⟨fun value hvalue ↦ hliterals value (.head hcalls.mem_children hvalue), ?_⟩
    exact hany.imp_right fun hnot hcontains ↦ hnot (.head hcalls.mem_children hcontains)
  number := fun ⟨hliterals, _⟩ ↦ ⟨rfl, hliterals _ .refl⟩
  name := by
    rintro word env n ⟨-, hany⟩
    obtain ⟨hx, hy, hw, hh⟩ := hb
    refine Bindings.Related.agree_find ⟨⟨rfl, hx⟩, ⟨rfl, hy⟩, ⟨rfl, hw⟩, ⟨rfl, hh⟩, rfl⟩ _ ?_
    rintro rfl hok
    rcases hany with hno | hnot
    · exact absurd hok (Bool.eq_false_iff.1 hno)
    · exact absurd .refl hnot
  arithmetic := by
    rintro op lhs rhs env n n' n'' v w x _ y _ - - - - - ⟨rfl, hx⟩ ⟨rfl, hy⟩
    exact .self .refl fun result h ↦ ⟨rfl, BinaryOp.isNaN_of_arithmetic hx hy h⟩

end Comparison

/-- Only `any` brings NaNs into a value: the value of an accepted expression has none at any depth.

Assumes: the board binds no NaN, and `any` is not permitted or not written. -/
theorem isNaN_of_evaluate {text : String} {e : Expr} {b : Bindings} {v : Value}
    (hparse : Expr.parse text = .ok e) (hb : b.Numeric)
    (hany : b.anyOk = false ∨ ¬e.Contains (.name "any")) (h : e.evaluate b = .ok v) :
    ∀ x ∈ v.numbers, x.isNaN = false := by
  have hsite : (Comparison.numeric b).sites (.start e b) := ⟨Expr.isNaN_of_parse hparse, hany⟩
  have hvalue := (Comparison.numeric_lawful hb).agree_evaluate rfl hsite
  change (Comparison.numeric b).Outcomes _ (e.evaluate b) (e.evaluate b) at hvalue
  rw [h] at hvalue
  exact Value.Related.forall_numbers (fun _ _ hab ↦ hab.2) hvalue

/-- The tree of `[(x + i, y % 2) for i in range(w)]`. -/
def sidestepsExpr : Expr :=
  .comprehension (.tuple [.binary .add (.name "x") (.name "i"),
      .binary .mod (.name "y") (.number (Decimal.toFloat ⟨2, 0⟩))])
    [.mk "i" (.range [.name "w"]) []]

/-- Coordinates that are computed from those of a piece, on a board. -/
theorem isNaN_of_evaluate_sidesteps :
    Expr.parse "[(x + i, y % 2) for i in range(w)]" = .ok sidestepsExpr ∧
      ∃ v, sidestepsExpr.evaluate ⟨2, 3, 8, 8, false⟩ = .ok v ∧ v.numbers.length = 16 ∧
        ∀ x ∈ v.numbers, x.isNaN = false := by
  have hparse : Expr.parse "[(x + i, y % 2) for i in range(w)]" = .ok sidestepsExpr := by
    have hls : lexemes 0 "[(x + i, y % 2) for i in range(w)]".toList = .ok
        [⟨.mark .bracketOpen, 0⟩, ⟨.mark .parenOpen, 1⟩, ⟨.name "x", 2⟩, ⟨.mark .plus, 4⟩,
          ⟨.name "i", 6⟩, ⟨.mark .comma, 7⟩, ⟨.name "y", 9⟩, ⟨.mark .percent, 11⟩,
          ⟨.number (Decimal.toFloat ⟨2, 0⟩), 13⟩, ⟨.mark .parenClose, 14⟩, ⟨.mark .kwFor, 16⟩,
          ⟨.name "i", 20⟩, ⟨.mark .kwIn, 22⟩, ⟨.name "range", 25⟩, ⟨.mark .parenOpen, 30⟩,
          ⟨.name "w", 31⟩, ⟨.mark .parenClose, 32⟩, ⟨.mark .bracketClose, 33⟩] := by
      decide +kernel
    rw [Expr.parse, hls, sidestepsExpr]
    generalize Decimal.toFloat ⟨2, 0⟩ = two
    cbv
  obtain ⟨v, hv, hlength⟩ :
      ∃ v, sidestepsExpr.evaluate ⟨2, 3, 8, 8, false⟩ = .ok v ∧ v.numbers.length = 16 := by
    decide +kernel
  exact ⟨hparse, v, hv, hlength, isNaN_of_evaluate hparse ⟨rfl, rfl, rfl, rfl⟩ (.inl rfl) hv⟩

/-! ### Permission for wildcards -/

namespace Comparison

/-- An evaluation without permission for `any` next to the same one with it. -/
def permission (x y w h : Float) : Comparison where
  left := ⟨x, y, w, h, false⟩
  right := ⟨x, y, w, h, true⟩
  numbers := (· = ·)
  excused := (· = .wildcardNotAllowed)
  slack := 0
  sites _ := True

theorem permission_lawful (x y w h : Float) : (permission x y w h).Lawful where
  congruent := congruent_eq
  budget := .inl rfl
  calls := fun _ _ ↦ trivial
  number := fun _ ↦ rfl
  name := by
    intro word env b _
    change (permission x y w h).Outcomes _ (Bindings.find ⟨x, y, w, h, false⟩ word)
      (Bindings.find ⟨x, y, w, h, true⟩ word)
    unfold Bindings.find
    split
    · exact .number rfl
    split
    · exact .number rfl
    split
    · exact .number rfl
    split
    · exact .number rfl
    split
    · exact rfl
    · exact .inr (.refl _)
  arithmetic := by
    rintro op lhs rhs env b b' b'' v w x _ y _ - - - - - rfl rfl
    exact .self .refl fun _ _ ↦ rfl

end Comparison

theorem evaluate_permission (e : Expr) (x y w h : Float) :
    e.evaluate ⟨x, y, w, h, false⟩ = .error .wildcardNotAllowed ∨
      e.evaluate ⟨x, y, w, h, false⟩ = e.evaluate ⟨x, y, w, h, true⟩ := by
  have hvalue := (Comparison.permission_lawful x y w h).agree_evaluate (e := e) rfl trivial
  change (Comparison.permission x y w h).Outcomes _ (e.evaluate ⟨x, y, w, h, false⟩)
    (e.evaluate ⟨x, y, w, h, true⟩) at hvalue
  revert hvalue
  rcases e.evaluate ⟨x, y, w, h, false⟩ with fault | v <;>
    rcases e.evaluate ⟨x, y, w, h, true⟩ with fault' | v'
  · rintro (rfl | hfault)
    · exact .inl rfl
    · exact .inr (congrArg _ (hfault.eq fun _ _ heq ↦ heq))
  · rintro rfl
    exact .inl rfl
  · exact fun h ↦ h.elim
  · exact fun hvalue ↦ .inr (congrArg _ (hvalue.eq fun _ _ heq ↦ heq))

theorem relativePaths_permission (f : Formula) (x y w h : Float) :
    f.relativePaths ⟨x, y, w, h, false⟩ = .error ⟨f.source, .failed .wildcardNotAllowed⟩ ∨
      f.relativePaths ⟨x, y, w, h, false⟩ = f.relativePaths ⟨x, y, w, h, true⟩ := by
  unfold Formula.relativePaths
  rcases evaluate_permission f.expr x y w h with hfault | heq
  · exact .inl (by rw [hfault])
  · exact .inr (by rw [heq])

/-- Permission to use `any` only adds results: without it a formula fails for that reason, naming
its text, or everything is as it is with the permission, whether it is the value of the expression,
its paths, or its paths in the world for a piece on a board. -/
theorem permission_adds_results (f : Formula) :
    (∀ x y w h, f.expr.evaluate ⟨x, y, w, h, false⟩ = .error .wildcardNotAllowed ∨
      f.expr.evaluate ⟨x, y, w, h, false⟩ = f.expr.evaluate ⟨x, y, w, h, true⟩) ∧
    (∀ x y w h, f.relativePaths ⟨x, y, w, h, false⟩ =
        .error ⟨f.source, .failed .wildcardNotAllowed⟩ ∨
      f.relativePaths ⟨x, y, w, h, false⟩ = f.relativePaths ⟨x, y, w, h, true⟩) ∧
    ∀ (p : Piece) (board : Board), f.worldPaths p.frame p.position board false =
        .error ⟨f.source, .failed .wildcardNotAllowed⟩ ∨
      f.worldPaths p.frame p.position board false =
        f.worldPaths p.frame p.position board true := by
  refine ⟨evaluate_permission f.expr, relativePaths_permission f, fun p board ↦ ?_⟩
  unfold Formula.worldPaths Bindings.ofPlace
  rcases relativePaths_permission f (p.frame.toPlayer p.position).x (p.frame.toPlayer p.position).y
    board.width.toFloat board.height.toFloat with hfault | heq
  · exact .inl (by rw [hfault]; rfl)
  · exact .inr (by rw [heq])

end Waypoints
