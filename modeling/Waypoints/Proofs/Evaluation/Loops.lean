import Waypoints.Proofs.Evaluation.Sparing
import Waypoints.Proofs.Evaluation.Stack
/-!
# The laws of loops

A comprehension runs through its clauses as nested loops do. Two conditions of a clause in a row are
one condition, their conjunction, also in what they leave of the budget and of the stack if a step
fails (`Expr.run_fuse`). And the later of its clauses may be made a comprehension of its own for
each binding of the earlier ones: the lists that these give, one after the other, are what all
clauses together give, for which no such lists are built and paid for (`Expr.sparing_nest`).
-/

set_option autoImplicit false
set_option relaxedAutoImplicit false

namespace Waypoints

namespace OnStack

variable {α : Type}

theorem Restores.unique {locals : List (String × Value)} {after : Except EvalFault α × Store}
    {outcome outcome' : Except EvalFault (α × Nat)} (h : Restores locals after outcome)
    (h' : Restores locals after outcome') : outcome = outcome' := by
  rcases outcome with fault | ⟨a, left⟩ <;> rcases outcome' with fault' | ⟨a', left'⟩
  · obtain ⟨_, rfl⟩ := h
    obtain ⟨_, hsame⟩ := h'
    cases hsame
    rfl
  · obtain ⟨_, rfl⟩ := h
    cases h'
  · obtain ⟨_, rfl⟩ := h'
    cases h
  · cases h.symm.trans h'
    rfl

/-- What a step gives determines the function that it realizes. -/
theorem Realizes.unique {b : Bindings} {step : OnStack α} {f g : Env → EvalM α}
    (hf : Realizes b step f) (hg : Realizes b step g) (locals : List (String × Value)) :
    f ⟨b, locals⟩ = g ⟨b, locals⟩ :=
  funext fun budget ↦ (hf ⟨locals, budget⟩).unique (hg ⟨locals, budget⟩)

end OnStack

namespace Expr

/-! ### Conditions -/

section Conditions

variable {b : Bindings}

/-- Two conditions in a row are evaluated as their conjunction is. -/
theorem runFilters_fuse (earlier later : List Expr) (p q : Expr) :
    runFilters b (earlier ++ p :: q :: later) =
      runFilters b (earlier ++ logic .and p q :: later) := by
  induction earlier with
  | nil =>
    rw [List.nil_append, List.nil_append, runFilters, runFilters, runFilters, run, bind_assoc]
    refine congrArg (p.run b >>= ·) (funext fun v ↦ ?_)
    rw [LogicOp.decides]
    cases hv : v.isTruthy with
    | false =>
      rw [Bool.not_false, if_pos rfl, pure_bind, hv]
      rfl
    | true => rfl
  | cons e earlier ih => rw [List.cons_append, List.cons_append, runFilters, runFilters, ih]

/-- What a clause is replaced by matters only in what it runs over, its variable and whether its
conditions hold. -/
theorem runClauses_replace {build : OnStack (List Value)} {loopVar : String} {items : Expr}
    {filters filters' : List Expr} (h : runFilters b filters' = runFilters b filters)
    (before after : List Clause) :
    runClauses b build (before ++ .mk loopVar items filters' :: after) =
      runClauses b build (before ++ .mk loopVar items filters :: after) := by
  induction before with
  | nil => rw [List.nil_append, List.nil_append, runClauses, runClauses, h]
  | cons c before ih =>
    obtain ⟨loopVar', items', filters''⟩ := c
    rw [List.cons_append, List.cons_append, runClauses, runClauses, ih]

/-- Two conditions of a clause in a row may be joined by `and`. -/
theorem run_fuse (element : Expr) (before after : List Clause) (loopVar : String) (items : Expr)
    (earlier later : List Expr) (p q : Expr) :
    (comprehension element
        (before ++ .mk loopVar items (earlier ++ p :: q :: later) :: after)).run b =
      (comprehension element
        (before ++ .mk loopVar items (earlier ++ logic .and p q :: later) :: after)).run b := by
  rw [run_comprehension, run_comprehension, runClauses_replace (runFilters_fuse earlier later p q)]

end Conditions

/-! ### Clauses -/

/-- Clauses cost no more and collect related rows, if what is built inside them does and is. -/
theorem sparing_evalClauses {r : List Value → List Value → Prop}
    (hflatten : ∀ {rows rows' : List (List Value)}, List.Forall₂ r rows rows' →
      r rows.flatten rows'.flatten)
    {build build' : Env → EvalM (List Value)}
    (hbuild : ∀ env, sparing.Rel r (build env) (build' env)) (clauses : List Clause) (env : Env) :
    sparing.Rel r (evalClauses build clauses env) (evalClauses build' clauses env) := by
  induction clauses generalizing env with
  | nil => exact hbuild env
  | cons c clauses ih =>
    have hitem (item : Value) : sparing.Rel r (evalItem build c clauses env item)
        (evalItem build' c clauses env item) := by
      rw [evalItem, evalItem]
      refine sparing.bind (sparing_evalFilters c.filters _) ?_
      rintro holds _ rfl
      cases holds with
      | false => exact sparing.pure (hflatten .nil)
      | true => exact ih _
    rw [evalClauses_cons, evalClauses_cons]
    refine sparing_eval_same fun v _ ↦ ?_
    refine (costs_liftM _).sparing_same fun items _ ↦ ?_
    rw [← List.mapM'_eq_mapM]
    refine sparing.bind (Lifting.mapM (List.forall₂_same.2 fun _ _ ↦ rfl) ?_)
      fun rows rows' hrows ↦ sparing.pure (hflatten hrows)
    rintro item _ rfl
    exact hitem item

theorem sparing_buildElement (element : Expr) (env : Env) :
    sparing.Rel Eq (buildElement element env) (buildElement element env) := by
  refine sparing_eval_same fun v _ ↦ ?_
  exact (costs_spend v.weight).sparing_same fun _ _ ↦ sparing.pure rfl

/-- The second row consists of lists, which one after the other are the first row. -/
def Nests (row lists : List Value) : Prop :=
  ∃ rows : List (List Value), lists = rows.map .list ∧ row = rows.flatten

theorem nests_flatten {rows rows' : List (List Value)} (h : List.Forall₂ Nests rows rows') :
    Nests rows.flatten rows'.flatten := by
  induction h with
  | nil => exact ⟨[], rfl, rfl⟩
  | cons hrow _ ih =>
    obtain ⟨inner, rfl, rfl⟩ := hrow
    obtain ⟨rest, hlists, hrest⟩ := ih
    refine ⟨inner ++ rest, ?_, ?_⟩
    · rw [List.flatten_cons, hlists, List.map_append]
    · rw [List.flatten_cons, hrest, List.flatten_append]

/-- Clauses cost no more than a comprehension with them, which pays for its list. -/
theorem sparing_buildElement_comprehension (element : Expr) (clauses : List Clause) (env : Env) :
    sparing.Rel Nests (evalClauses (buildElement element) clauses env)
      (buildElement (comprehension element clauses) env) := by
  have hself := sparing_evalClauses (r := Eq)
    (fun h ↦ congrArg List.flatten (List.forall₂_eq_eq_eq ▸ h)) (sparing_buildElement element)
    clauses env
  rw [buildElement, eval_comprehension, bind_assoc]
  nth_rewrite 1 [← bind_pure (evalClauses (buildElement element) clauses env)]
  refine sparing.bind hself ?_
  rintro row _ rfl
  rw [pure_bind]
  -- Only the second way pays for the list; its items have been paid for in both.
  exact (costs_spend _).sparing_bind (sparing.pure ⟨[row], rfl, (List.append_nil row).symm⟩)

/-- The clauses after some may be made a comprehension of their own, the lists of which are then
joined. -/
theorem sparing_nest (element : Expr) (before later : List Clause) (env : Env) :
    sparing.Rel (fun v w ↦ ∃ rows : List (List Value), w = .list (rows.map .list) ∧
        v = .list rows.flatten)
      ((comprehension element (before ++ later)).eval env)
      ((comprehension (comprehension element later) before).eval env) := by
  rw [eval_comprehension, eval_comprehension, evalClauses_append]
  refine sparing.bind (sparing_evalClauses nests_flatten
    (sparing_buildElement_comprehension element later) before env) ?_
  rintro _ _ ⟨rows, rfl, rfl⟩
  exact sparing.pure ⟨rows, rfl, rfl⟩

/-- Comprehensions obey the laws of loops, whatever the element, the clauses, the bindings, the
variables and the budget are. Two conditions of a clause in a row have the outcome of their
conjunction and leave the same budget, also if the evaluation fails on the way. And where the
comprehension that makes a list of its later clauses for each binding of the earlier ones has a
value, this is a list of lists; all clauses together give the items of these lists in order, and
spend no more. -/
theorem loop_laws (element : Expr) (before after : List Clause) :
    (∀ (loopVar : String) (items : Expr) (earlier later : List Expr) (p q : Expr),
      (∀ env, (comprehension element
          (before ++ .mk loopVar items (earlier ++ p :: q :: later) :: after)).eval env =
        (comprehension element
          (before ++ .mk loopVar items (earlier ++ logic .and p q :: later) :: after)).eval env) ∧
      ∀ b, (comprehension element
          (before ++ .mk loopVar items (earlier ++ p :: q :: later) :: after)).run b =
        (comprehension element
          (before ++ .mk loopVar items (earlier ++ logic .and p q :: later) :: after)).run b) ∧
    ∀ (env : Env) (budget : Nat) (v : Value) (left : Nat),
      ((comprehension (comprehension element after) before).eval env).run budget = .ok (v, left) →
      ∃ (rows : List (List Value)) (left' : Nat), v = .list (rows.map .list) ∧
        ((comprehension element (before ++ after)).eval env).run budget =
          .ok (.list rows.flatten, left') ∧ left ≤ left' := by
  refine ⟨fun loopVar items earlier later p q ↦ ⟨fun env ↦ ?_, fun b ↦ ?_⟩,
    fun env budget v left hv ↦ ?_⟩
  · refine OnStack.Realizes.unique (b := env.board) (realizes_run _ _) ?_ env.locals
    rw [run_fuse]
    exact realizes_run _ _
  · exact run_fuse element before after loopVar items earlier later p q
  · obtain ⟨_, left', hflat, ⟨rows, rfl, rfl⟩, hle⟩ :=
      sparing_of_ok (sparing_nest element before after env) hv
    exact ⟨rows, left', rfl, hflat, hle⟩

/-- Of the budget of 16 the comprehension `[[j for j in [i, i]] for i in [1, 2]]` leaves 6, and
`[j for i in [1, 2] for j in [i, i]]` has the items of its lists and leaves no less. -/
theorem loop_laws_pairs :
    ∃ (rows : List (List Value)) (left' : Nat),
      Value.list [.list [.number 1, .number 1], .list [.number 2, .number 2]] =
        .list (rows.map .list) ∧
      ((comprehension (name "j") ([.mk "i" (list [.number 1, .number 2]) []] ++
          [.mk "j" (list [.name "i", .name "i"]) []])).eval (.ofBoard ⟨0, 0, 8, 8, false⟩)).run 16 =
        .ok (.list rows.flatten, left') ∧ 6 ≤ left' :=
  (loop_laws (name "j") [.mk "i" (list [.number 1, .number 2]) []]
    [.mk "j" (list [.name "i", .name "i"]) []]).2 _ 16 _ 6 rfl

end Expr

end Waypoints
