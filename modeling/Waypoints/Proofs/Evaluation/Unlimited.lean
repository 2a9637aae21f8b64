import Waypoints.Proofs.Evaluation.Semantics
/-!
# The budget as a limit

`Expr.unlimited` evaluates an expression with no budget at all. An evaluation has a cost and, with
any budget that covers the cost, the outcome of the unlimited one; with less it is refused
(`Expr.exists_cost`). So the budget never changes a value or an error but by refusing it
(`budget_only_limits`).
-/

set_option autoImplicit false
set_option relaxedAutoImplicit false

namespace Waypoints

/-! ### The semantics without a budget -/

/-- The items of a progression, which has to move and to be short enough. -/
def Progression.freeItems (p : Progression) : Except EvalFault Value :=
  if p.step == 0 then .error .zeroStep
  else if p.span > Number.ofNat maxRangeLength then .error (.rangeTooLarge p.length)
  else .ok (.list p.items)

/-- The operations of the expression language, of which none is paid for. -/
def Semantics.unlimited (b : Bindings) : Semantics (Except EvalFault) Value where
  number value := .ok (.number value)
  name := b.find
  unary := UnaryOp.apply
  binary
    | .add, .list as, .list bs => .ok (.list (as ++ bs))
    | .add, .tuple as, .tuple bs => .ok (.tuple (as ++ bs))
    | op, lhs, rhs => op.onNumbers lhs rhs
  holds := CompareOp.holds
  range args := do
    match Progression.ofArguments? (← args.mapM' rangeArgument) with
    | some p => p.freeItems
    | none => .error .rangeArity
  items := iterate
  pay _ := .ok ()
  isTruthy := Value.isTruthy
  bool := .bool
  tuple := .tuple
  list := .list

/-- Evaluates an expression with no budget. -/
def Expr.unlimited (e : Expr) (env : Env) : Except EvalFault Value :=
  e.interpret (.unlimited env.board) env.locals

/-! ### Costs -/

section Costs

variable {α β γ δ : Type}

/-- A step with a cost: it has an outcome that does not depend on the budget and spends the cost,
or is refused where the budget does not cover the cost. -/
def Costs (y : EvalM α) (cost : Nat) (outcome : Except EvalFault α) : Prop :=
  ∀ b, y b = if cost ≤ b then outcome.map (·, b - cost) else .error .tooManyValues

theorem costs_liftM (x : Except EvalFault α) : Costs (liftM x) 0 x := by
  intro b
  rw [if_pos (Nat.zero_le b)]
  cases x <;> rfl

theorem costs_throw (fault : EvalFault) : Costs (throw fault : EvalM α) 0 (.error fault) :=
  costs_liftM (.error fault)

theorem costs_spend (values : Nat) : Costs (spend values) values (.ok ()) := by
  intro b
  unfold spend
  change (if values ≤ b then _ else _ : EvalM Unit) b = _
  split <;> rfl

theorem Costs.bind {y : EvalM α} {g : α → EvalM β} {cost cost' : Nat} {a : α}
    {outcome : Except EvalFault β} (hy : Costs y cost (.ok a)) (hg : Costs (g a) cost' outcome) :
    Costs (y >>= g) (cost + cost') outcome := by
  intro b
  by_cases hcost : cost ≤ b
  · have hfirst : y b = .ok (a, b - cost) := (hy b).trans (if_pos hcost)
    rw [StateT.bind_of_ok hfirst, hg, Nat.sub_sub]
    by_cases hcost' : cost' ≤ b - cost
    · rw [if_pos hcost', if_pos (by omega)]
    · rw [if_neg hcost', if_neg (by omega)]
  · have hfirst : y b = .error .tooManyValues := (hy b).trans (if_neg hcost)
    rw [if_neg (by omega)]
    change Except.bind (y b) _ = _
    rw [hfirst]
    rfl

theorem costs_spend_return (values : Nat) (a : α) :
    Costs (do spend values; return a) values (.ok a) :=
  (costs_spend values).bind (g := fun _ ↦ return a) (costs_liftM (.ok a))

/-- What follows a step that fails is not run. -/
theorem Costs.bind_error {y : EvalM α} {g : α → EvalM β} {cost : Nat} {fault : EvalFault}
    (hy : Costs y cost (.error fault)) : Costs (y >>= g) cost (.error fault) := by
  intro b
  change Except.bind (y b) _ = _
  rw [hy b]
  split <;> rfl

/-- The steps of an evaluation that have a cost, and the outcomes of which are those without a
budget. -/
def costing : Lifting (Except EvalFault) where
  Rel ok x y := ∃ cost outcome, Costs y cost outcome ∧ x.Agrees (fun _ ↦ False) Eq ok outcome
  pure {_ _ _ _ b} h := ⟨0, .ok b, costs_liftM (.ok b), h⟩
  bind {_ _ _ _ ok ok' x y f g} h hf := by
    obtain ⟨cost, outcome, hy, hagrees⟩ := h
    rcases x with fault | a <;> rcases outcome with fault' | b
    · exact ⟨cost, .error fault', hy.bind_error, hagrees⟩
    · exact hagrees.elim
    · exact hagrees.elim
    · obtain ⟨cost', outcome', hg, hagrees'⟩ := hf a b hagrees
      exact ⟨cost + cost', outcome', hy.bind hg, hagrees'⟩

theorem costing_of_costs {ok : α → α → Prop} {x : Except EvalFault α} {y : EvalM α} {cost : Nat}
    (h : Costs y cost x) (hok : ∀ a, ok a a) : costing.Rel ok x y :=
  ⟨cost, x, h, .self (fun _ ↦ rfl) fun a _ ↦ hok a⟩

theorem costing_liftM {ok : α → α → Prop} (x : Except EvalFault α) (hok : ∀ a, ok a a) :
    costing.Rel ok x (liftM x) :=
  costing_of_costs (costs_liftM x) hok

end Costs

/-! ### Operations -/

theorem costing_apply (b : Bindings) (op : BinaryOp) (lhs rhs : Value) :
    costing.Rel Eq ((Semantics.unlimited b).binary op lhs rhs) (op.apply lhs rhs) := by
  have hnumbers : costing.Rel Eq (op.onNumbers lhs rhs) (liftM (op.onNumbers lhs rhs)) :=
    costing_liftM _ fun _ ↦ rfl
  have hspend (values : Nat) (v : Value) :
      costing.Rel Eq (.ok v) (do spend values; return v) :=
    costing_of_costs (costs_spend_return values v) fun _ ↦ rfl
  cases op with
  | add =>
    cases lhs with
    | list as =>
      cases rhs with
      | list bs => exact hspend _ _
      | _ => exact hnumbers
    | tuple as =>
      cases rhs with
      | tuple bs => exact hspend _ _
      | _ => exact hnumbers
    | _ => exact hnumbers
  | _ => exact hnumbers

theorem costing_build (p : Progression) : costing.Rel Eq p.freeItems p.build := by
  unfold Progression.freeItems Progression.build
  split
  · exact costing_of_costs (costs_throw _) fun _ ↦ rfl
  split
  · exact costing_of_costs (costs_throw _) fun _ ↦ rfl
  · exact costing_of_costs (costs_spend_return _ _) fun _ ↦ rfl

theorem costing_rangeOf (b : Bindings) (args : List Value) :
    costing.Rel Eq ((Semantics.unlimited b).range args) (rangeOf args) := by
  have hargs : costing.Rel (List.Forall₂ Eq) (args.mapM' rangeArgument)
      (args.mapM fun v ↦ (liftM (rangeArgument v) : EvalM Float)) := by
    refine Lifting.mapM (List.forall₂_same.2 fun _ _ ↦ rfl) ?_
    rintro v _ rfl
    exact costing_liftM _ fun _ ↦ rfl
  refine costing.bind hargs fun xs ys hxs ↦ ?_
  obtain rfl := List.forall₂_eq_eq_eq ▸ hxs
  cases Progression.ofArguments? xs with
  | some p => exact costing_build p
  | none => exact costing_of_costs (costs_throw _) fun _ ↦ rfl

theorem simulates_unlimited (b : Bindings) :
    (Semantics.unlimited b).Simulates b costing Eq fun _ ↦ True where
  number _ := costing.pure rfl
  name _ := costing_liftM _ fun _ ↦ rfl
  unary op := by
    rintro v _ rfl
    exact costing_liftM _ fun _ ↦ rfl
  binary := by
    rintro op lhs rhs v v' _ _ - rfl rfl
    exact costing_apply b op v v'
  holds op := by
    rintro v v' _ _ rfl rfl
    exact costing_liftM _ fun _ ↦ rfl
  range := by
    intro vs ws h
    obtain rfl := List.forall₂_eq_eq_eq ▸ h
    exact costing_rangeOf b vs
  items := by
    rintro v _ rfl
    exact costing_liftM _ fun _ ↦ List.forall₂_same.2 fun _ _ ↦ rfl
  pay := by
    rintro v _ rfl
    exact costing_of_costs (costs_spend _) fun _ ↦ trivial
  isTruthy h := congrArg _ h
  bool _ := rfl
  tuple h := congrArg Value.tuple (List.forall₂_eq_eq_eq ▸ h)
  list h := congrArg Value.list (List.forall₂_eq_eq_eq ▸ h)

/-! ### Expressions -/

/-- An evaluation has a cost, and the outcome of the evaluation with no budget if it can pay. -/
theorem Expr.exists_cost (e : Expr) (env : Env) :
    ∃ cost, Costs (e.eval env) cost (e.unlimited env) := by
  have hlocals : RelatedLocals Eq env.locals env.locals :=
    List.forall₂_same.2 fun _ _ ↦ ⟨rfl, rfl⟩
  obtain ⟨cost, outcome, hcost, hagrees⟩ :=
    (simulates_unlimited env.board).interpret e (fun _ _ ↦ trivial) rfl hlocals
  refine ⟨cost, ?_⟩
  suffices e.unlimited env = outcome by rwa [this]
  change Except.Agrees _ _ _ (e.unlimited env) outcome at hagrees
  revert hagrees
  rcases e.unlimited env with fault | v <;> rcases outcome with fault' | v'
  · exact fun h ↦ h.elim False.elim (congrArg Except.error)
  · exact False.elim
  · exact False.elim
  · exact congrArg Except.ok

/-- The budget is only a limit: with a smaller one an evaluation is refused, or it has the outcome
that it has with a greater one, and that it has with none; and what it spends does not depend on the
budget. -/
theorem budget_only_limits (e : Expr) (env : Env) {b b' : Nat} (hle : b ≤ b') :
    ((e.eval env).run' b = .error .tooManyValues ∨
        (e.eval env).run' b = (e.eval env).run' b') ∧
      (∀ v v' left left', (e.eval env).run b = .ok (v, left) →
        (e.eval env).run b' = .ok (v', left') → b - left = b' - left' ∧ left ≤ b ∧ left' ≤ b') ∧
      ((e.eval env).run' b = .error .tooManyValues ∨
        (e.eval env).run' b = e.unlimited env) := by
  obtain ⟨cost, hcost⟩ := e.exists_cost env
  have hpaid {b : Nat} (h : cost ≤ b) : (e.eval env).run' b = e.unlimited env := by
    change Except.map _ (e.eval env b) = _
    rw [hcost, if_pos h]
    cases e.unlimited env <;> rfl
  have hrefused {b : Nat} (h : ¬cost ≤ b) : (e.eval env).run' b = .error .tooManyValues := by
    change Except.map _ (e.eval env b) = _
    rw [hcost, if_neg h]
    rfl
  have hleft {b left : Nat} {v : Value} (h : (e.eval env).run b = .ok (v, left)) :
      cost ≤ b ∧ left = b - cost := by
    change e.eval env b = _ at h
    rw [hcost] at h
    split at h
    · next hle =>
      refine ⟨hle, ?_⟩
      revert h
      rcases e.unlimited env with fault | w
      · exact fun h ↦ nomatch h
      · exact fun h ↦ ((Prod.mk.inj (Except.ok.inj h)).2).symm
    · cases h
  refine ⟨?_, fun v v' left left' h h' ↦ ?_, ?_⟩
  · by_cases h : cost ≤ b
    · exact .inr ((hpaid h).trans (hpaid (h.trans hle)).symm)
    · exact .inl (hrefused h)
  · obtain ⟨hb, rfl⟩ := hleft h
    obtain ⟨hb', rfl⟩ := hleft h'
    omega
  · by_cases h : cost ≤ b
    · exact .inr (hpaid h)
    · exact .inl (hrefused h)

/-- The range of two items is paid for with 2, and a budget of 3 does not change it. -/
theorem budget_only_limits_range :
    2 ≤ 3 ∧ ((Expr.range [.number 2]).eval (.ofBoard ⟨0, 0, 8, 8, false⟩)).run' 2 =
      ((Expr.range [.number 2]).eval (.ofBoard ⟨0, 0, 8, 8, false⟩)).run' 3 := by
  have hpaid : ((Expr.range [.number 2]).eval (.ofBoard ⟨0, 0, 8, 8, false⟩)).run' 2 =
      .ok (.list [.number 0, .number 1]) := rfl
  refine ⟨by decide, (budget_only_limits _ _ (by decide)).1.resolve_left fun hrefused ↦ ?_⟩
  rw [hpaid] at hrefused
  cases hrefused

end Waypoints
