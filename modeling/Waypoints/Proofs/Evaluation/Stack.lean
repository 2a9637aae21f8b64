import Waypoints.Proofs.Evaluation.Scoping
import Waypoints.Proofs.InPlace
/-!
# Evaluation on one stack

`Expr.run` evaluates an expression in place: all clauses push their variables on one stack and take
them off again, also when a condition rejects an item or a step fails, and names are looked up from
the top. It gives what `Expr.eval` gives in the environment on the stack, and leaves the stack as it
found it, whether it succeeds or fails (`Expr.realizes_run`). So a variable is in force in its scope
and nowhere else (`Expr.loopVars_scoped`).
-/

set_option autoImplicit false
set_option relaxedAutoImplicit false

namespace Waypoints

/-! ### Operations on the stack -/

/-- What an evaluation changes in place: the stack of the variables in force, the innermost on top,
and the budget. -/
structure Store where
  locals : List (String × Value)
  budget : Nat

namespace Store

/-- Puts a variable on the stack. -/
def push (s : Store) (loopVar : String) (v : Value) : Store :=
  { s with locals := (loopVar, v) :: s.locals }

/-- Takes the topmost variable off the stack. -/
def pop (s : Store) : Store :=
  { s with locals := s.locals.tail }

end Store

/-- A step of an evaluation in place. -/
abbrev OnStack := InPlace EvalFault Store

namespace OnStack

variable {α β : Type}

/-- Looks a name up. -/
def lookup (b : Bindings) (word : String) : OnStack Value := do
  let s ← get
  liftM (Env.find ⟨b, s.locals⟩ word)

/-- Pays from the budget. What cannot be paid for leaves the budget as it is. -/
def charge (step : EvalM α) : OnStack α := do
  let s ← get
  let (a, left) ← liftM (step s.budget)
  set { s with budget := left }
  return a

/-- Runs a step with one more variable on the stack, and takes it off before the outcome of the step
is looked at. -/
def withVar (loopVar : String) (v : Value) (step : OnStack α) : OnStack α := do
  modify (·.push loopVar v)
  let outcome ← (ExceptT.lift step.run : OnStack (Except EvalFault α))
  modify Store.pop
  liftM outcome

/-- What a step has given and left is what a function gives: its result with its budget, or its
fault. In both cases the stack is as it was. -/
def Restores (locals : List (String × Value)) (after : Except EvalFault α × Store) :
    Except EvalFault (α × Nat) → Prop
  | .ok (a, left) => after = (.ok a, ⟨locals, left⟩)
  | .error fault => ∃ left, after = (.error fault, ⟨locals, left⟩)

/-- A step gives what a function of the environment gives that is on the stack, and leaves the stack
as it was, whether it succeeds or fails. -/
def Realizes (b : Bindings) (step : OnStack α) (f : Env → EvalM α) : Prop :=
  ∀ s : Store, Restores s.locals (step.apply s) (f ⟨b, s.locals⟩ s.budget)

section Rules

variable {b : Bindings} {step : OnStack α} {f : Env → EvalM α}

theorem realizes_pure (a : α) : Realizes b (pure a) fun _ ↦ pure a :=
  fun _ ↦ rfl

theorem realizes_liftM (x : Except EvalFault α) : Realizes b (liftM x) fun _ ↦ liftM x := by
  intro s
  cases x with
  | ok a => rfl
  | error fault => exact ⟨s.budget, rfl⟩

theorem realizes_lookup (word : String) :
    Realizes b (lookup b word) fun env ↦ liftM (env.find word) :=
  fun s ↦ realizes_liftM (b := b) (Env.find ⟨b, s.locals⟩ word) s

theorem realizes_charge (m : EvalM α) : Realizes b (charge m) fun _ ↦ m := by
  intro s
  rw [charge, InPlace.apply_get_bind, InPlace.apply_bind]
  change Restores s.locals _ (m s.budget)
  rcases m s.budget with fault | ⟨a, left⟩
  · exact ⟨s.budget, rfl⟩
  · rfl

theorem Realizes.bind (h : Realizes b step f) {next : α → OnStack β} {g : α → Env → EvalM β}
    (hnext : ∀ a, Realizes b (next a) (g a)) :
    Realizes b (step >>= next) fun env ↦ f env >>= (g · env) := by
  intro s
  have hs := h s
  rw [InPlace.apply_bind]
  change Restores s.locals _ ((f ⟨b, s.locals⟩ s.budget).bind fun p ↦ g p.1 ⟨b, s.locals⟩ p.2)
  generalize f ⟨b, s.locals⟩ s.budget = outcome at hs ⊢
  rcases outcome with fault | ⟨a, left⟩
  · obtain ⟨left, hstep⟩ := hs
    rw [hstep]
    exact ⟨left, rfl⟩
  · have hstep : step.apply s = (.ok a, ⟨s.locals, left⟩) := hs
    rw [hstep]
    exact hnext a ⟨s.locals, left⟩

theorem Realizes.mapM {step : α → OnStack β} {f : α → Env → EvalM β}
    (h : ∀ a, Realizes b (step a) (f a)) (as : List α) :
    Realizes b (as.mapM step) fun env ↦ as.mapM (f · env) := by
  induction as with
  | nil => exact realizes_pure []
  | cons a as ih =>
    simp only [List.mapM_cons]
    exact (h a).bind fun v ↦ ih.bind fun vs ↦ realizes_pure (v :: vs)

theorem Realizes.ite {c : Prop} [Decidable c] {step' : OnStack α} {f' : Env → EvalM α}
    (h : Realizes b step f) (h' : Realizes b step' f') :
    Realizes b (if c then step else step') fun env ↦ if c then f env else f' env := by
  by_cases hc : c
  · simpa only [if_pos hc] using h
  · simpa only [if_neg hc] using h'

/-- The outcome of a step with a variable, before it is looked at. -/
theorem apply_withVar (loopVar : String) (v : Value) (step : OnStack α) (s : Store) :
    (withVar loopVar v step).apply s =
      ((step.apply (s.push loopVar v)).1, (step.apply (s.push loopVar v)).2.pop) := by
  have happly : (withVar loopVar v step).apply s =
      match step.apply (s.push loopVar v) with
      | (outcome, s') => (liftM outcome : OnStack α).apply s'.pop := rfl
  rw [happly]
  rcases step.apply (s.push loopVar v) with ⟨fault | a, s'⟩ <;> rfl

/-- The variable is on the stack during the step and not after it, be it that the step fails. -/
theorem Realizes.withVar (h : Realizes b step f) (loopVar : String) (v : Value) :
    Realizes b (withVar loopVar v step) fun env ↦ f (env.bind loopVar v) := by
  intro s
  have hs := h (s.push loopVar v)
  rw [apply_withVar]
  change Restores s.locals _ (f ⟨b, (loopVar, v) :: s.locals⟩ s.budget)
  change Restores ((loopVar, v) :: s.locals) _ (f ⟨b, (loopVar, v) :: s.locals⟩ s.budget) at hs
  generalize f ⟨b, (loopVar, v) :: s.locals⟩ s.budget = outcome at hs ⊢
  rcases outcome with fault | ⟨a, left⟩
  · obtain ⟨left, hstep⟩ := hs
    rw [hstep]
    exact ⟨left, rfl⟩
  · have hstep : step.apply (s.push loopVar v) = (.ok a, ⟨(loopVar, v) :: s.locals, left⟩) := hs
    rw [hstep]
    rfl

end Rules

end OnStack

/-! ### The evaluator -/

namespace Expr

open OnStack (charge lookup withVar Realizes realizes_pure realizes_liftM realizes_lookup
  realizes_charge)

variable {b : Bindings}

mutual

/-- Evaluates an expression with the variables on the stack. -/
def run (b : Bindings) : Expr → OnStack Value
  | number value => return .number value
  | name word => lookup b word
  | unary op operand => do
    let v ← run b operand
    liftM (op.apply v)
  | binary op lhs rhs => do
    let l ← run b lhs
    let r ← run b rhs
    charge (op.apply l r)
  | compare first links => do
    let v ← run b first
    return .bool (← runLinks b links v)
  | logic op lhs rhs => do
    let v ← run b lhs
    if op.decides v then return v else run b rhs
  | conditional value condition otherwise => do
    let v ← run b condition
    if v.isTruthy then run b value else run b otherwise
  | tuple items => do
    return .tuple (← runAll b items)
  | list items => do
    return .list (← runAll b items)
  | comprehension element clauses => do
    let build : OnStack (List Value) := do
      let v ← run b element
      charge (spend v.weight)
      return [v]
    return .list (← runClauses b build clauses)
  | range args => do
    let vs ← runAll b args
    charge (rangeOf vs)

/-- Evaluates expressions from left to right. -/
def runAll (b : Bindings) : List Expr → OnStack (List Value)
  | [] => return []
  | e :: es => do
    let v ← run b e
    return v :: (← runAll b es)

/-- Evaluates a chain of comparisons with the operand before it, as far as they hold. -/
def runLinks (b : Bindings) : List Link → Value → OnStack Bool
  | [], _ => return true
  | .mk op operand :: links, lhs => do
    let rhs ← run b operand
    if ← liftM (op.holds lhs rhs) then runLinks b links rhs else return false

/-- Evaluates conditions as far as they hold, and says whether all of them do. -/
def runFilters (b : Bindings) : List Expr → OnStack Bool
  | [] => return true
  | e :: es => do
    let v ← run b e
    if v.isTruthy then runFilters b es else return false

/-- Runs through all the bindings that clauses give. The variable of a clause is on the stack for
its conditions and for the clauses after it, not for what it runs over. -/
def runClauses (b : Bindings) (build : OnStack (List Value)) : List Clause → OnStack (List Value)
  | [] => build
  | .mk loopVar items filters :: clauses => do
    let run ← liftM (iterate (← run b items))
    let built ← run.mapM fun item ↦ withVar loopVar item do
      if ← runFilters b filters then runClauses b build clauses else return []
    return built.flatten

end

/-- What a clause and those after it give for one item, whose variable is on the stack meanwhile. -/
def runItem (b : Bindings) (build : OnStack (List Value)) (c : Clause) (clauses : List Clause)
    (item : Value) : OnStack (List Value) :=
  withVar c.loopVar item do
    if ← runFilters b c.filters then runClauses b build clauses else return []

theorem runClauses_cons (build : OnStack (List Value)) (c : Clause) (clauses : List Clause) :
    runClauses b build (c :: clauses) = do
      let run ← liftM (iterate (← run b c.items))
      let built ← run.mapM (runItem b build c clauses)
      return built.flatten := by
  obtain ⟨loopVar, items, filters⟩ := c
  rw [runClauses]
  rfl

/-- The elements of a comprehension, each of which is paid for. -/
def runElement (b : Bindings) (element : Expr) : OnStack (List Value) := do
  let v ← run b element
  charge (spend v.weight)
  return [v]

theorem run_comprehension (element : Expr) (clauses : List Clause) :
    run b (comprehension element clauses) = do
      return .list (← runClauses b (runElement b element) clauses) := by
  rw [run]
  rfl

section Rows

theorem realizes_runAll {es : List Expr} (h : ∀ e ∈ es, Realizes b (e.run b) e.eval) :
    Realizes b (runAll b es) (evalAll es) := by
  induction es with
  | nil => exact realizes_pure []
  | cons e es ih =>
    obtain ⟨he, hes⟩ := List.forall_mem_cons.1 h
    exact he.bind fun v ↦ (ih hes).bind fun vs ↦ realizes_pure (v :: vs)

theorem realizes_runLinks {links : List Link}
    (h : ∀ l ∈ links, Realizes b (l.operand.run b) l.operand.eval) (lhs : Value) :
    Realizes b (runLinks b links lhs) (evalLinks links · lhs) := by
  induction links generalizing lhs with
  | nil => exact realizes_pure true
  | cons l links ih =>
    obtain ⟨op, operand⟩ := l
    obtain ⟨hl, hlinks⟩ := List.forall_mem_cons.1 h
    exact hl.bind fun rhs ↦ (realizes_liftM _).bind fun holds ↦
      (ih hlinks rhs).ite (realizes_pure false)

theorem realizes_runFilters {es : List Expr} (h : ∀ e ∈ es, Realizes b (e.run b) e.eval) :
    Realizes b (runFilters b es) (evalFilters es) := by
  induction es with
  | nil => exact realizes_pure true
  | cons e es ih =>
    obtain ⟨he, hes⟩ := List.forall_mem_cons.1 h
    exact he.bind fun v ↦ (ih hes).ite (realizes_pure false)

variable {build : OnStack (List Value)} {f : Env → EvalM (List Value)} {clauses : List Clause}

/-- The stack is as it was after an item, be it that a condition rejects the item or that a step
fails. -/
theorem realizes_runItem {c : Clause} (hfilters : ∀ e ∈ c.filters, Realizes b (e.run b) e.eval)
    (hclauses : Realizes b (runClauses b build clauses) (evalClauses f clauses)) (item : Value) :
    Realizes b (runItem b build c clauses item) (evalItem f c clauses · item) :=
  ((realizes_runFilters hfilters).bind fun _ ↦ hclauses.ite (realizes_pure [])).withVar
    c.loopVar item

theorem realizes_runClauses (hbuild : Realizes b build f)
    (h : ∀ c ∈ clauses, Realizes b (c.items.run b) c.items.eval ∧
      ∀ e ∈ c.filters, Realizes b (e.run b) e.eval) :
    Realizes b (runClauses b build clauses) (evalClauses f clauses) := by
  induction clauses with
  | nil => exact hbuild
  | cons c clauses ih =>
    obtain ⟨⟨hitems, hfilters⟩, hclauses⟩ := List.forall_mem_cons.1 h
    rw [runClauses_cons, funext (evalClauses_cons f c clauses)]
    refine hitems.bind fun v ↦ (realizes_liftM _).bind fun run ↦ ?_
    exact (OnStack.Realizes.mapM (realizes_runItem hfilters (ih hclauses)) run).bind fun built ↦
      realizes_pure built.flatten

end Rows

theorem realizes_runElement {element : Expr} (h : Realizes b (element.run b) element.eval) :
    Realizes b (runElement b element) (buildElement element) :=
  h.bind fun v ↦ (realizes_charge _).bind fun _ ↦ realizes_pure [v]

/-- The evaluation on the stack gives what the evaluation in an environment gives, and leaves the
stack as it was. -/
theorem realizes_run (b : Bindings) (e : Expr) : Realizes b (e.run b) e.eval := by
  induction e with
  | number value => exact realizes_pure (Value.number value)
  | name word => exact realizes_lookup word
  | unary op operand ih => exact ih.bind fun v ↦ realizes_liftM (op.apply v)
  | binary op lhs rhs ihl ihr =>
    exact ihl.bind fun l ↦ ihr.bind fun r ↦ realizes_charge (op.apply l r)
  | compare first links ihf ihl =>
    exact ihf.bind fun v ↦ (realizes_runLinks ihl v).bind fun holds ↦
      realizes_pure (Value.bool holds)
  | logic op lhs rhs ihl ihr => exact ihl.bind fun v ↦ (realizes_pure v).ite ihr
  | conditional value condition otherwise ihv ihc iho => exact ihc.bind fun v ↦ ihv.ite iho
  | tuple items ih => exact (realizes_runAll ih).bind fun vs ↦ realizes_pure (Value.tuple vs)
  | list items ih => exact (realizes_runAll ih).bind fun vs ↦ realizes_pure (Value.list vs)
  | comprehension element clauses ihe ihc =>
    rw [run_comprehension, funext (eval_comprehension element clauses)]
    exact (realizes_runClauses (realizes_runElement ihe) ihc).bind fun vs ↦
      realizes_pure (Value.list vs)
  | range args ih => exact (realizes_runAll ih).bind fun vs ↦ realizes_charge (rangeOf vs)

/-! ### Scopes -/

/-- The variables of clauses are lexically scoped. Every node has a place in its expression, and
wherever it is, the variable of a clause may be renamed to a name that its scope avoids: the value
or the fault stays the same, for all bindings. What stands at a place matters only where exactly the
variables of the clauses around it are in force; these are not the variables of comprehensions
beside it, and for what a clause runs over not the variable of that clause. All other names stand
there for what the board binds. On the stack that all clauses share this is so because every step
leaves the stack as it was, also if it fails, and so does every item, also if it is rejected. -/
theorem loopVars_scoped :
    (∀ e node : Expr, e.Contains node → ∃ holes, fillAll holes node = e) ∧
    (∀ (holes : List Hole) (fresh : String) (element : Expr) (before : List Clause) (c : Clause)
        (later : List Clause) (b : Bindings), fresh ∉ scopeWords element c later →
      (fillAll holes (renameClause fresh element before c later)).evaluate b =
        (fillAll holes (comprehension element (before ++ c :: later))).evaluate b) ∧
    (∀ (holes : List Hole) (e e' : Expr) (b : Bindings),
      (∀ locals : List (String × Value), locals.map Prod.fst = scope holes →
        e'.eval ⟨b, locals⟩ = e.eval ⟨b, locals⟩) →
      (fillAll holes e').evaluate b = (fillAll holes e).evaluate b) ∧
    (∀ (holes : List Hole) (word : String) (b : Bindings) (locals : List (String × Value)),
      locals.map Prod.fst = scope holes → word ∉ scope holes →
        (name word).eval ⟨b, locals⟩ = liftM (b.find word)) ∧
    ∀ b : Bindings, (∀ e : Expr, OnStack.Realizes b (e.run b) e.eval) ∧
      ∀ (element : Expr) (c : Clause) (later : List Clause) (item : Value),
        OnStack.Realizes b (runItem b (runElement b element) c later item)
          (evalItem (buildElement element) c later · item) := by
  refine ⟨fun e node h ↦ exists_fillAll h, fun holes fresh element before c later b hfresh ↦ ?_,
    fun holes e e' b h ↦ ?_, fun holes word b locals hlocals hword ↦ ?_,
    fun b ↦ ⟨realizes_run b, fun element c later item ↦ ?_⟩⟩
  · exact evaluate_fillAll fun locals _ ↦ eval_renameClause hfresh before ⟨b, locals⟩
  · exact evaluate_fillAll h
  · rw [← hlocals] at hword
    exact congrArg liftM (Env.find_of_notMem hword)
  · refine realizes_runItem (fun e _ ↦ realizes_run b e) ?_ item
    exact realizes_runClauses (realizes_runElement (realizes_run b element))
      fun c _ ↦ ⟨realizes_run b c.items, fun e _ ↦ realizes_run b e⟩

/-- In `([a for a in a if a for a in [a]], a)` the variable of the first clause may be `b`: its
condition and what the second clause runs over are in its scope. What it runs over itself, the
element and the item beside the comprehension are not. -/
theorem loopVars_scoped_rebound :
    "b" ∉ scopeWords (.name "a") (.mk "a" (.name "a") [.name "a"])
        [.mk "a" (.list [.name "a"]) []] ∧
      ∀ b : Bindings,
        (tuple [.comprehension (.name "a") [.mk "b" (.name "a") [.name "b"],
          .mk "a" (.list [.name "b"]) []], .name "a"]).evaluate b =
        (tuple [.comprehension (.name "a") [.mk "a" (.name "a") [.name "a"],
          .mk "a" (.list [.name "a"]) []], .name "a"]).evaluate b := by
  have hfresh : "b" ∉ scopeWords (.name "a") (.mk "a" (.name "a") [.name "a"])
      [.mk "a" (.list [.name "a"]) []] := by decide
  exact ⟨hfresh, fun b ↦
    loopVars_scoped.2.1 [.tuple [] [.name "a"]] "b" (.name "a") [] _ _ b hfresh⟩

end Expr

end Waypoints
