import Waypoints.Proofs.Evaluation.Unlimited
/-!
# Evaluations that cost no more

Two ways to evaluate one thing may differ in what they evaluate again and in the sequences they
build meanwhile, and so in what they cost. `sparing` compares their steps: the outcomes agree, and
the first way costs no more than the second. With any budget the first way then succeeds where the
second does and has at least as much left (`sparing_of_ok`), and where it fails so does the second,
which has met the same fault or cannot pay (`sparing_of_error`).
-/

set_option autoImplicit false
set_option relaxedAutoImplicit false

namespace Waypoints

section Rules

variable {α β : Type} {ok : α → β → Prop} {x : EvalM α} {y : EvalM β}

/-- Steps with a cost, of which the first costs no more and the outcomes of which agree. -/
def sparing : Lifting EvalM where
  Rel ok x y := ∃ cost cost' outcome outcome', cost ≤ cost' ∧ Costs x cost outcome ∧
    Costs y cost' outcome' ∧ outcome.Agrees (fun _ ↦ False) Eq ok outcome'
  pure {_ _ _ a b} h := ⟨0, 0, .ok a, .ok b, le_rfl, costs_liftM (.ok a), costs_liftM (.ok b), h⟩
  bind {_ _ _ _ ok ok' x y f g} h hf := by
    obtain ⟨cost, cost', outcome, outcome', hle, hx, hy, hagrees⟩ := h
    rcases outcome with fault | a <;> rcases outcome' with fault' | b
    · exact ⟨cost, cost', .error fault, .error fault', hle, hx.bind_error, hy.bind_error, hagrees⟩
    · exact hagrees.elim
    · exact hagrees.elim
    · obtain ⟨next, next', result, result', hnext, hf, hg, hagrees'⟩ := hf a b hagrees
      exact ⟨cost + next, cost' + next', result, result', Nat.add_le_add hle hnext, hx.bind hf,
        hy.bind hg, hagrees'⟩

/-- The same step before both ways. -/
theorem Costs.sparing_same {γ : Type} {z : EvalM γ} {f : γ → EvalM α} {g : γ → EvalM β}
    {cost : Nat} {outcome : Except EvalFault γ} (hz : Costs z cost outcome)
    (h : ∀ c, outcome = .ok c → sparing.Rel ok (f c) (g c)) :
    sparing.Rel ok (z >>= f) (z >>= g) := by
  have hself : sparing.Rel (fun c c' ↦ c = c' ∧ outcome = .ok c) z z :=
    ⟨cost, cost, outcome, outcome, le_rfl, hz, hz, .self (fun _ ↦ rfl) fun _ hc ↦ ⟨rfl, hc⟩⟩
  refine sparing.bind hself ?_
  rintro c _ ⟨rfl, hc⟩
  exact h c hc

/-- A step before the second way makes it cost more, if the step cannot fail but for its cost. -/
theorem Costs.sparing_bind {γ : Type} {z : EvalM γ} {g : γ → EvalM β} {cost : Nat} {c : γ}
    (hz : Costs z cost (.ok c)) (h : sparing.Rel ok x (g c)) : sparing.Rel ok x (z >>= g) := by
  obtain ⟨costx, costg, outcome, outcome', hle, hx, hg, hagrees⟩ := h
  exact ⟨costx, cost + costg, outcome, outcome', hle.trans (Nat.le_add_left _ _), hx, hz.bind hg,
    hagrees⟩

/-- Where the second way succeeds, so does the first, and has at least as much left. -/
theorem sparing_of_ok (h : sparing.Rel ok x y) {budget left : Nat} {b : β}
    (hy : y.run budget = .ok (b, left)) :
    ∃ a left', x.run budget = .ok (a, left') ∧ ok a b ∧ left ≤ left' := by
  obtain ⟨cost, cost', outcome, outcome', hle, hcost, hcost', hagrees⟩ := h
  rw [StateT.run, hcost'] at hy
  split at hy
  · next hpaid =>
    rcases outcome with fault | a <;> rcases outcome' with fault' | b'
    · cases hy
    · exact hagrees.elim
    · cases hy
    · obtain ⟨rfl, rfl⟩ := Prod.mk.inj (Except.ok.inj hy)
      refine ⟨a, budget - cost, ?_, hagrees, by omega⟩
      rw [StateT.run, hcost, if_pos (hle.trans hpaid)]
      rfl
  · cases hy

/-- Where the first way fails, the second fails alike or cannot pay. -/
theorem sparing_of_error (h : sparing.Rel ok x y) {budget : Nat} {fault : EvalFault}
    (hx : x.run budget = .error fault) :
    y.run budget = .error fault ∨ y.run budget = .error .tooManyValues := by
  obtain ⟨cost, cost', outcome, outcome', hle, hcost, hcost', hagrees⟩ := h
  rw [StateT.run, hcost] at hx
  rw [StateT.run, hcost']
  by_cases hpaid : cost' ≤ budget
  · rw [if_pos (hle.trans hpaid)] at hx
    rw [if_pos hpaid]
    rcases outcome with first | a <;> rcases outcome' with second | b
    · obtain rfl : first = second := hagrees.resolve_left id
      cases hx
      exact .inl rfl
    · exact hagrees.elim
    · cases hx
    · cases hx
  · exact .inr (if_neg hpaid)

end Rules

/-! ### Expressions -/

namespace Expr

section Steps

variable {α β : Type} {ok : α → β → Prop} {e : Expr} {env : Env} {g : Value → EvalM β}

/-- The same expression before both ways. -/
theorem sparing_eval_same {f : Value → EvalM α}
    (h : ∀ v, e.unlimited env = .ok v → sparing.Rel ok (f v) (g v)) :
    sparing.Rel ok (e.eval env >>= f) (e.eval env >>= g) := by
  obtain ⟨cost, hcost⟩ := e.exists_cost env
  exact hcost.sparing_same h

/-- An expression that has a value may be evaluated once more in the second way. -/
theorem sparing_eval_bind {x : EvalM α} {v : Value} (hv : e.unlimited env = .ok v)
    (h : sparing.Rel ok x (g v)) : sparing.Rel ok x (e.eval env >>= g) := by
  obtain ⟨cost, hcost⟩ := e.exists_cost env
  rw [hv] at hcost
  exact hcost.sparing_bind h

end Steps

theorem sparing_evalFilters (filters : List Expr) (env : Env) :
    sparing.Rel Eq (evalFilters filters env) (evalFilters filters env) := by
  induction filters with
  | nil => exact sparing.pure rfl
  | cons e es ih =>
    rw [evalFilters]
    refine sparing_eval_same fun v _ ↦ ?_
    split
    · exact ih
    · exact sparing.pure rfl

end Expr

end Waypoints
