import Waypoints.Proofs.Evaluation.Sparing
/-!
# Chains of comparisons

A chain `e₀ op₁ e₁ op₂ e₂ … opₙ eₙ` means the conjunction `(e₀ op₁ e₁) and (e₁ op₂ e₂) and …`
(`Expr.conjunction`). The two are evaluated differently. The chain keeps the value of the operand
that two of its comparisons share, where the conjunction evaluates it twice; and the conjunction
nests to the left, so that a comparison which fails is passed up through all connectives after it
(`Expr.eval_conjoin`). The outcomes agree nevertheless, and the chain costs no more
(`Expr.chain_is_conjunction`).
-/

set_option autoImplicit false
set_option relaxedAutoImplicit false

namespace Waypoints

namespace Expr

/-- Joins the comparisons of a chain to what is before them, one by one; `lhs` is the operand before
the chain. -/
def conjoin : Expr → Expr → List Link → Expr
  | before, _, [] => before
  | before, lhs, .mk op operand :: links =>
    conjoin (logic .and before (compare lhs [.mk op operand])) operand links

/-- The conjunction `(e₀ op₁ e₁) and (e₁ op₂ e₂) and …` of the comparisons of a chain, which has at
least one. -/
def conjunction (first : Expr) (l : Link) (links : List Link) : Expr :=
  conjoin (compare first [l]) l.operand links

example (a b c d : Expr) :
    conjunction a (.mk .lt b) [.mk .le c, .mk .ne d] =
      logic .and (logic .and (compare a [.mk .lt b]) (compare b [.mk .le c]))
        (compare c [.mk .ne d]) :=
  rfl

/-! ### The conjunction -/

/-- The outcome of one comparison, both operands of which are evaluated. -/
def holdsBetween (op : CompareOp) (lhs rhs : Expr) (env : Env) : EvalM Bool := do
  let v ← lhs.eval env
  let w ← rhs.eval env
  liftM (op.holds v w)

/-- Evaluates the comparisons of a chain one by one as far as they hold, each with both its
operands. -/
def holdsEach (env : Env) : Expr → List Link → EvalM Bool
  | _, [] => return true
  | lhs, .mk op operand :: links => do
    if ← holdsBetween op lhs operand env then holdsEach env operand links else return false

theorem bind_ite_self (x : EvalM Bool) : (do if ← x then return true else return false) = x := by
  refine (congrArg (x >>= ·) (funext fun flag ↦ ?_)).trans (bind_pure x)
  cases flag <;> rfl

theorem eval_compare_singleton (op : CompareOp) (lhs rhs : Expr) (env : Env) :
    (compare lhs [.mk op rhs]).eval env = do return .bool (← holdsBetween op lhs rhs env) := by
  have hlink (v : Value) :
      evalLinks [.mk op rhs] env v = rhs.eval env >>= fun w ↦ liftM (op.holds v w) := by
    simp only [evalLinks, bind_ite_self]
  rw [eval, holdsBetween]
  simp only [hlink, bind_assoc]

/-- A conjunction of truth values. -/
theorem eval_and {lhs rhs : Expr} {env : Env} {x y : EvalM Bool}
    (hlhs : lhs.eval env = do return .bool (← x)) (hrhs : rhs.eval env = do return .bool (← y)) :
    (logic .and lhs rhs).eval env = do
      return .bool (← (do if ← x then y else return false)) := by
  rw [eval, hlhs, hrhs, bind_assoc, bind_assoc]
  refine congrArg (x >>= ·) (funext fun flag ↦ ?_)
  rw [pure_bind]
  cases flag <;> rfl

/-- However a conjunction nests, its comparisons are evaluated one by one as far as they hold. -/
theorem eval_conjoin {before : Expr} {env : Env} {x : EvalM Bool}
    (hbefore : before.eval env = do return .bool (← x)) (lhs : Expr) (links : List Link) :
    (conjoin before lhs links).eval env = do
      return .bool (← (do if ← x then holdsEach env lhs links else return false)) := by
  induction links generalizing before x lhs with
  | nil => simp only [conjoin, hbefore, holdsEach, bind_ite_self]
  | cons l links ih =>
    obtain ⟨op, operand⟩ := l
    rw [conjoin, ih (eval_and hbefore (eval_compare_singleton op lhs operand env))]
    refine congrArg (· >>= _) ?_
    rw [bind_assoc]
    refine congrArg (x >>= ·) (funext fun flag ↦ ?_)
    cases flag <;> rfl

theorem eval_conjunction (first : Expr) (l : Link) (links : List Link) (env : Env) :
    (conjunction first l links).eval env = do
      return .bool (← holdsEach env first (l :: links)) := by
  obtain ⟨op, operand⟩ := l
  exact eval_conjoin (eval_compare_singleton op first operand env) operand links

/-! ### The chain -/

section Chain

variable {env : Env}

/-- A comparison and those after it, given the value of the operand before them. -/
theorem sparing_link {operand : Expr} {links : List Link}
    (h : ∀ w, operand.unlimited env = .ok w →
      sparing.Rel Eq (evalLinks links env w) (holdsEach env operand links))
    (op : CompareOp) (v : Value) :
    sparing.Rel Eq (evalLinks (.mk op operand :: links) env v) (do
      let w ← operand.eval env
      if ← liftM (op.holds v w) then holdsEach env operand links else return false) := by
  rw [evalLinks]
  refine sparing_eval_same fun w hw ↦ ?_
  refine (costs_liftM _).sparing_same fun holds _ ↦ ?_
  cases holds with
  | false => exact sparing.pure rfl
  | true => exact h w hw

theorem holdsEach_cons (lhs operand : Expr) (op : CompareOp) (links : List Link) :
    holdsEach env lhs (.mk op operand :: links) = do
      let v ← lhs.eval env
      let w ← operand.eval env
      if ← liftM (op.holds v w) then holdsEach env operand links else return false := by
  simp only [holdsEach, holdsBetween, bind_assoc]

/-- The comparisons of a chain cost no more, given the value of its first operand, than they do one
by one. -/
theorem sparing_evalLinks {lhs : Expr} {v : Value} (hv : lhs.unlimited env = .ok v)
    (links : List Link) : sparing.Rel Eq (evalLinks links env v) (holdsEach env lhs links) := by
  -- By induction on the chain: its next operand has a value by then, and is evaluated once more by
  -- the comparison after it.
  induction links generalizing lhs v with
  | nil => exact sparing.pure rfl
  | cons l links ih =>
    obtain ⟨op, operand⟩ := l
    rw [holdsEach_cons]
    exact sparing_eval_bind hv (sparing_link (fun w hw ↦ ih hw) op v)

end Chain

theorem sparing_chain (first : Expr) (l : Link) (links : List Link) (env : Env) :
    sparing.Rel Eq ((compare first (l :: links)).eval env)
      ((conjunction first l links).eval env) := by
  obtain ⟨op, operand⟩ := l
  rw [eval, eval_conjunction, holdsEach_cons, bind_assoc]
  refine sparing_eval_same fun v _ ↦ ?_
  refine sparing.bind (sparing_link (fun w hw ↦ sparing_evalLinks hw links) op v) ?_
  rintro holds _ rfl
  exact sparing.pure rfl

/-- A chain of comparisons means the conjunction of its comparisons, with any bindings, variables
and budget. Where the conjunction has a value, the chain has the same value and spends no more; and
where the chain fails, the conjunction fails alike or cannot pay. -/
theorem chain_is_conjunction (first : Expr) (l : Link) (links : List Link) (env : Env)
    (budget : Nat) :
    (∀ v left, ((conjunction first l links).eval env).run budget = .ok (v, left) →
      ∃ left', ((compare first (l :: links)).eval env).run budget = .ok (v, left') ∧
        left ≤ left') ∧
    ∀ fault, ((compare first (l :: links)).eval env).run budget = .error fault →
      ((conjunction first l links).eval env).run budget = .error fault ∨
        ((conjunction first l links).eval env).run budget = .error .tooManyValues := by
  have hsparing := sparing_chain first l links env
  refine ⟨fun v left hv ↦ ?_, fun fault ↦ sparing_of_error hsparing⟩
  obtain ⟨v', left', hchain, rfl, hle⟩ := sparing_of_ok hsparing hv
  exact ⟨left', hchain, hle⟩

/-- Of the budget of 9 the conjunction for `range(1) == range(1) == range(1)` leaves 5, for it has
the second range twice, and `1 < [] < 1` fails before its last operand. -/
theorem chain_is_conjunction_ranges :
    (∃ left', ((compare (range [.number 1]) [.mk .eq (range [.number 1]),
        .mk .eq (range [.number 1])]).eval (.ofBoard ⟨0, 0, 8, 8, false⟩)).run 9 =
          .ok (.bool true, left') ∧ 5 ≤ left') ∧
      (((conjunction (.number 1) (.mk .lt (list [])) [.mk .lt (.number 1)]).eval
          (.ofBoard ⟨0, 0, 8, 8, false⟩)).run 0 = .error (.unordered .number .list) ∨
        ((conjunction (.number 1) (.mk .lt (list [])) [.mk .lt (.number 1)]).eval
          (.ofBoard ⟨0, 0, 8, 8, false⟩)).run 0 = .error .tooManyValues) :=
  ⟨(chain_is_conjunction _ _ _ _ 9).1 (.bool true) 5 rfl,
    (chain_is_conjunction _ _ _ _ 0).2 (.unordered .number .list) rfl⟩

end Expr

end Waypoints
