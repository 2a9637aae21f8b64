import Waypoints.Proofs.Evaluation.Comparison
import Waypoints.Proofs.Evaluation.Copies
import Waypoints.Proofs.Number.SignOfZero
/-!
# Evaluations and the sign of a zero

The evaluations of an expression for the same numbers up to the signs of zeros agree, unless the run
comes to a power of a zero with a negative odd exponent (`Place.IsPole`): its value is an infinity
that has its sign from the zero. No other operator, comparison or condition tells a zero from its
negative (`Comparison.signless_lawful`). At a pole the infinities of both signs are values
(`evaluate_poleExpr`).
-/

set_option autoImplicit false
set_option relaxedAutoImplicit false

namespace Waypoints

open Number (Same)

/-! ### Operators -/

theorem congruent_same : Congruent Same where
  zero := .refl 0
  one := .refl 1
  neg := Same.neg
  beq := Same.beq_eq
  lt := Same.lt_iff
  le := Same.le_iff
  isWhole := Same.isWhole_eq
  span := by
    rintro ⟨start, stop, step⟩ ⟨start', stop', step'⟩ ⟨hstart, hstop, hstep⟩ hmoves
    obtain rfl := hstep.eq_of_ne_zero hmoves
    exact (hstop.sub hstart).div.ceil.clamp_eq
  item := fun i ⟨hstart, _, hstep⟩ _ _ _ ↦ hstart.add (hstep.mul (.refl _))

namespace BinaryOp

variable {x x' y y' : Float}

/-- Operators on the same numbers up to the signs of zeros have such results, or fail alike.

Assumes: a power is not at a pole. -/
theorem agree_compute (op : BinaryOp) (hx : Same x x') (hy : Same y y')
    (hpole : op = .pow → Number.isPole x y = false) :
    Except.Agrees (fun _ ↦ False) (EvalFault.Related Same) Same (op.compute x y)
      (op.compute x' y') := by
  have hnonzero {fault : EvalFault} {result result' : Float}
      (hresult : y = y' → Same result result') :
      Except.Agrees (fun _ ↦ False) (EvalFault.Related Same) Same (nonzero y fault result)
        (nonzero y' fault result') := by
    unfold nonzero
    rw [← hy.beq_eq (.refl 0)]
    cases hzero : y == 0 with
    | true => exact .inr (.refl fault)
    | false => exact hresult (hy.eq_of_ne_zero hzero)
  cases op with
  | add => exact hx.add hy
  | sub => exact hx.sub hy
  | mul => exact hx.mul hy
  | div =>
    refine hnonzero ?_
    rintro rfl
    exact hx.div
  | floorDiv =>
    refine hnonzero ?_
    rintro rfl
    exact hx.div.floor
  | mod =>
    refine hnonzero ?_
    rintro rfl
    exact hx.sub ((Same.refl y).mul hx.div.floor)
  | pow => exact hx.power hy (hpole rfl)

theorem agree_arithmetic (op : BinaryOp) (hx : Same x x') (hy : Same y y')
    (hpole : op = .pow → Number.isPole x y = false) :
    Except.Agrees (fun _ ↦ False) (EvalFault.Related Same) Same (op.arithmetic x y)
      (op.arithmetic x' y') := by
  refine (op.agree_compute hx hy hpole).bind fun r r' _ _ hr ↦ ?_
  rw [hx.isNaN_eq, hy.isNaN_eq, hr.isNaN_eq]
  split
  · exact .inr (.operands op hx hy)
  · exact hr

end BinaryOp

/-! ### Runs -/

/-- A power of a zero with a negative odd exponent. -/
def Place.IsPole (p : Place) : Prop :=
  ∃ base exponent v w b b' x y, p.expr = .binary .pow base exponent ∧
    base.eval p.env p.budget = .ok (v, b) ∧ exponent.eval p.env b = .ok (w, b') ∧
    v.toNumber? = some x ∧ w.toNumber? = some y ∧ Number.isPole x y

namespace Comparison

/-- Evaluations for bindings that are the same up to the signs of zeros, at places from where the
run comes to no pole. -/
def signless (b b' : Bindings) : Comparison where
  left := b
  right := b'
  numbers := Same
  excused _ := False
  slack := 0
  sites p := ∀ q, Visits p q → ¬q.IsPole

theorem signless_lawful {b b' : Bindings} (hb : b.Related Same b') : (signless b b').Lawful where
  congruent := congruent_same
  budget := .inl rfl
  calls := fun hsite hcalls q hvisits ↦ hsite q (.head hcalls hvisits)
  number := fun _ ↦ .refl _
  name := fun _ ↦ hb.agree_find _ fun _ _ ↦ .refl _
  arithmetic := by
    intro op lhs rhs env n n' n'' v w x x' y y' hsite hlhs hrhs hv hw hx hy
    refine op.agree_arithmetic hx hy fun hpow ↦ Bool.eq_false_iff.2 fun hpole ↦ ?_
    subst hpow
    exact hsite _ .refl ⟨lhs, rhs, v, w, n', n'', x, y, rfl, hlhs, hrhs, hv, hw, hpole⟩

end Comparison

/-! ### An expression with a pole -/

/-- `(p ** -(not p), q)`. -/
def poleExpr (p q : String) : Expr :=
  .tuple [.binary .pow (.name p) (.unary .minus (.unary .not (.name p))), .name q]

/-- The tokens of `(p ** -(not p), q)`. -/
def poleTokens (p q : String) : List Token :=
  [.mark .parenOpen, .name p, .mark .starStar, .mark .minus, .mark .parenOpen, .mark .kwNot,
    .name p, .mark .parenClose, .mark .comma, .name q, .mark .parenClose]

theorem phrase_poleExpr {p q : String} (hp : p ≠ "range") (hq : q ≠ "range") :
    Phrase .expr (poleTokens p q) (poleExpr p q) 6 := by
  have hname : Phrase .factor [.name p] (.name p) 0 := .atom (.name hp)
  have hnot := Phrase.not hname.inversion_of_factor
  have hgroup := Phrase.group (Phrase.plain hnot.disjunction_of_inversion)
  have hexponent : Phrase .factor _ (.unary .minus _) _ :=
    .sign .minus (.atom hgroup)
  have hpower := Phrase.power (.name hp) hexponent
  have hitems := Phrase.last (Phrase.expr_of_atom (.name hq))
  have hpair := Phrase.tuple hpower.expr_of_factor hitems
  exact hpair.expr_of_atom

section Values

variable {b : Bindings} {word p q : String} {z y : Float} {s : Float.Model.UnpackedFloat.Sign}

theorem Expr.eval_ofBoard_name {v : Value} (h : b.find word = .ok v) (n : Nat) :
    (name word).eval (.ofBoard b) n = .ok (v, n) := by
  rw [eval]
  change (liftM (b.find word) : EvalM Value) n = _
  rw [h]
  rfl

/-- The value at a pole has its sign from the zero. -/
theorem evaluate_poleExpr (hp : b.find p = .ok (.number z)) (hz : z.toModel.unpack = .zero s)
    (hq : b.find q = .ok (.number y)) :
    (poleExpr p q).evaluate b = .ok (.tuple [.number (Number.infinity s), .number y]) := by
  have hbase := Expr.eval_ofBoard_name hp
  have hnot (n : Nat) :
      (Expr.unary .not (.name p)).eval (.ofBoard b) n = .ok (.bool true, n) := by
    have hzero : (z == 0) = true := (Same.of_unpack_eq_zero hz).beq_eq (.refl 0)
    rw [Expr.eval, StateT.bind_of_ok (hbase n), UnaryOp.apply, Value.isTruthy, bne, hzero]
    rfl
  have hexponent (n : Nat) : (Expr.unary .minus (.unary .not (.name p))).eval (.ofBoard b) n =
      .ok (.number (-1), n) := by
    rw [Expr.eval, StateT.bind_of_ok (hnot n)]
    rfl
  have harithmetic : BinaryOp.pow.arithmetic z (-1) = .ok (Number.infinity s) := by
    have hcompute : BinaryOp.pow.compute z (-1) = .ok (Number.infinity s) :=
      congrArg Except.ok (Number.power_zero_neg_one hz)
    rw [BinaryOp.arithmetic, hcompute]
    change (if (Number.infinity s).isNaN && _ && _ then _ else _) = _
    rw [Number.isNaN_infinity]
    rfl
  have hpower (n : Nat) : (Expr.binary .pow (.name p) (.unary .minus (.unary .not (.name p)))).eval
      (.ofBoard b) n = .ok (.number (Number.infinity s), n) := by
    rw [Expr.eval, StateT.bind_of_ok (hbase n), StateT.bind_of_ok (hexponent n)]
    change (liftM (BinaryOp.pow.arithmetic z (-1) >>= _) : EvalM Value) n = _
    rw [harithmetic]
    rfl
  have hnil : Expr.evalAll [] (.ofBoard b) maxValues = .ok ([], maxValues) := rfl
  have hitems := Expr.evalAll_cons (hpower maxValues)
    (Expr.evalAll_cons (Expr.eval_ofBoard_name hq maxValues) hnil)
  have hvalue := Expr.eval_tuple hitems
  unfold Expr.evaluate poleExpr
  change Prod.fst <$> Expr.eval _ (.ofBoard b) maxValues = _
  rw [hvalue]
  rfl

end Values

end Waypoints
