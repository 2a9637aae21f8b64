import Waypoints.Expr.Formula
import Waypoints.Proofs.Evaluation.Charges
import Waypoints.Proofs.Expr.Shapes
import Waypoints.Proofs.Expr.Tree
/-!
# How much a result can weigh

What an evaluation does not pay for is copied from its text or from the variables of the clauses
around it. The `footprint` of an expression in an environment counts these values, and
`Expr.charges_eval` shows that an evaluation is charged for the footprint. Where every variable is a
single value, the footprint is at most the number of nodes (`Expr.footprint_le_size`), so that the
result of a whole expression weighs at most the budget and its nodes, and has no more waypoints
(`result_bounded`).
-/

set_option autoImplicit false
set_option relaxedAutoImplicit false

namespace Waypoints

/-! ### Footprints -/

namespace Expr

mutual

/-- The values in the result of an expression that are copied from its text or its variables. -/
def footprint (env : Env) : Expr → Nat
  | name word =>
    match env.locals.lookup word with
    | some v => v.weight
    | none => 1
  | binary _ lhs _ => footprint env lhs
  | logic _ lhs rhs => max (footprint env lhs) (footprint env rhs)
  | conditional value _ otherwise => max (footprint env value) (footprint env otherwise)
  | tuple items => totalFootprint env items + 1
  | list items => totalFootprint env items + 1
  | number _ => 1
  | unary _ _ => 1
  | compare _ _ => 1
  | comprehension _ _ => 1
  | range _ => 1

/-- The footprints of expressions taken together. -/
def totalFootprint (env : Env) : List Expr → Nat
  | [] => 0
  | e :: es => footprint env e + totalFootprint env es

end

/-! ### Rows of expressions -/

section Rows

variable {env : Env}

theorem charges_evalAll {items : List Expr}
    (h : ∀ e ∈ items, Charges (e.eval env) Value.weight (e.footprint env)) :
    Charges (evalAll items env) Value.totalWeight (totalFootprint env items) := by
  induction items with
  | nil => exact charges_pure []
  | cons e es ih =>
    obtain ⟨he, hes⟩ := List.forall_mem_cons.1 h
    rw [evalAll, totalFootprint]
    refine he.bind fun v ↦ ⟨v.weight + totalFootprint env es, ?_, .inr (by omega)⟩
    refine (ih hes).bind fun vs ↦ ⟨_, charges_pure (v :: vs), .inr ?_⟩
    rw [Value.totalWeight]
    omega

theorem charges_evalLinks {links : List Link} {n : Link → Nat}
    (h : ∀ l ∈ links, Charges (l.operand.eval env) Value.weight (n l)) (lhs : Value) :
    Charges (evalLinks links env lhs) (fun _ ↦ 0) 0 := by
  induction links generalizing lhs with
  | nil => exact charges_pure true
  | cons l links ih =>
    obtain ⟨op, operand⟩ := l
    obtain ⟨hl, hlinks⟩ := List.forall_mem_cons.1 h
    rw [evalLinks]
    refine hl.seq fun rhs ↦ ?_
    refine (charges_liftM (w := fun _ ↦ 0) fun _ _ ↦ le_rfl).seq fun holds ↦ ?_
    split
    · exact ih hlinks rhs
    · exact charges_pure false

theorem charges_evalFilters {filters : List Expr} {n : Expr → Nat}
    (h : ∀ e ∈ filters, Charges (e.eval env) Value.weight (n e)) :
    Charges (evalFilters filters env) (fun _ ↦ 0) 0 := by
  induction filters with
  | nil => exact charges_pure true
  | cons e es ih =>
    obtain ⟨he, hes⟩ := List.forall_mem_cons.1 h
    rw [evalFilters]
    refine he.seq fun v ↦ ?_
    split
    · exact ih hes
    · exact charges_pure false

end Rows

/-! ### Clauses -/

/-- What a clause and those after it give for one item. -/
def evalItem (build : Env → EvalM (List Value)) (c : Clause) (clauses : List Clause) (env : Env)
    (item : Value) : EvalM (List Value) := do
  if ← evalFilters c.filters (env.bind c.loopVar item) then
    evalClauses build clauses (env.bind c.loopVar item)
  else
    return []

theorem evalClauses_cons (build : Env → EvalM (List Value)) (c : Clause) (clauses : List Clause)
    (env : Env) : evalClauses build (c :: clauses) env = do
      let run ← liftM (iterate (← eval c.items env))
      let built ← run.mapM (evalItem build c clauses env)
      return built.flatten := by
  obtain ⟨loopVar, items, filters⟩ := c
  rw [evalClauses]
  rfl

/-- The elements of a comprehension, each of which is paid for. -/
def buildElement (element : Expr) (env : Env) : EvalM (List Value) := do
  let v ← eval element env
  spend v.weight
  return [v]

theorem eval_comprehension (element : Expr) (clauses : List Clause) (env : Env) :
    eval (comprehension element clauses) env = do
      return .list (← evalClauses (buildElement element) clauses env) := by
  rw [eval]
  rfl

/-- An element is paid for. -/
theorem charges_buildElement {element : Expr} {env : Env} {n : Nat}
    (h : Charges (element.eval env) Value.weight n) :
    Charges (buildElement element env) Value.totalWeight 0 := by
  refine h.seq fun v ↦ ?_
  refine (charges_spend _).bind fun _ ↦ ⟨_, charges_pure [v], .inr ?_⟩
  simp only [Value.totalWeight]
  omega

section Clauses

variable {build : Env → EvalM (List Value)} {clauses : List Clause}

theorem charges_evalItem {c : Clause} {n : Expr → Nat} {env : Env} {item : Value}
    (hfilters : ∀ e ∈ c.filters, Charges (e.eval (env.bind c.loopVar item)) Value.weight (n e))
    (hclauses : Charges (evalClauses build clauses (env.bind c.loopVar item)) Value.totalWeight 0) :
    Charges (evalItem build c clauses env item) Value.totalWeight 0 := by
  refine (charges_evalFilters hfilters).seq fun holds ↦ ?_
  split
  · exact hclauses
  · exact charges_pure []

/-- Clauses are charged for nothing if what they collect is paid for. -/
theorem charges_evalClauses
    (hbuild : ∀ env, Charges (build env) Value.totalWeight 0)
    (h : ∀ c ∈ clauses, (∀ env, Charges (c.items.eval env) Value.weight (c.items.footprint env)) ∧
      ∀ e ∈ c.filters, ∀ env, Charges (e.eval env) Value.weight (e.footprint env)) (env : Env) :
    Charges (evalClauses build clauses env) Value.totalWeight 0 := by
  induction clauses generalizing env with
  | nil => exact hbuild env
  | cons c clauses ih =>
    obtain ⟨⟨hitems, hfilters⟩, hclauses⟩ := List.forall_mem_cons.1 h
    have hitem (item : Value) : Charges (evalItem build c clauses env item) Value.totalWeight 0 :=
      charges_evalItem (fun e he ↦ hfilters e he _) (ih hclauses _)
    rw [evalClauses_cons]
    refine (hitems env).seq fun v ↦ ?_
    refine (charges_liftM (w := fun _ ↦ 0) fun _ _ ↦ le_rfl).seq fun run ↦ ?_
    refine (charges_mapM fun item _ ↦ hitem item).bind fun built ↦ ⟨_, charges_pure _, .inr ?_⟩
    rw [Value.totalWeight_flatten]

end Clauses

/-! ### Expressions -/

theorem charges_name (word : String) (env : Env) :
    Charges ((name word).eval env) Value.weight ((name word).footprint env) := by
  refine charges_liftM fun v hv ↦ ?_
  rw [Env.find] at hv
  rw [footprint]
  cases hlookup : env.locals.lookup word with
  | some u =>
    rw [hlookup] at hv
    obtain rfl := Except.ok.inj hv
    exact le_rfl
  | none =>
    rw [hlookup] at hv
    exact (weight_of_find hv).le

/-- An evaluation is charged for the footprint of its expression. -/
theorem charges_eval (e : Expr) (env : Env) :
    Charges (e.eval env) Value.weight (e.footprint env) := by
  induction e generalizing env with
  | number value => exact charges_pure (Value.number value)
  | name word => exact charges_name word env
  | unary op operand ih =>
    refine (ih env).seq fun v ↦ charges_liftM fun r hr ↦ ?_
    exact (weight_of_apply hr).le
  | binary op lhs rhs ihl ihr =>
    refine (ihl env).bind fun a ↦ ⟨a.weight, ?_, .inr le_rfl⟩
    exact (ihr env).seq fun b ↦ charges_apply op a b
  | compare first links ihf ihl =>
    refine (ihf env).seq fun v ↦ ?_
    refine (charges_evalLinks (fun l hl ↦ ihl l hl env) v).seq fun holds ↦ ?_
    exact charges_pure (Value.bool holds)
  | logic op lhs rhs ihl ihr =>
    refine (ihl env).bind fun v ↦ ?_
    by_cases hdecides : op.decides v
    · rw [if_pos hdecides]
      exact ⟨v.weight, charges_pure v, .inr (Nat.add_le_add_left (le_max_left _ _) _)⟩
    · rw [if_neg hdecides]
      exact ⟨rhs.footprint env, ihr env, .inl (le_max_right _ _)⟩
  | conditional value condition otherwise ihv ihc iho =>
    refine (ihc env).seq fun v ↦ ?_
    split
    · exact (ihv env).mono (le_max_left _ _)
    · exact (iho env).mono (le_max_right _ _)
  | tuple items ih =>
    refine (charges_evalAll fun e he ↦ ih e he env).bind fun vs ↦
      ⟨_, charges_pure (Value.tuple vs), .inr ?_⟩
    rw [Value.weight, footprint]
    omega
  | list items ih =>
    refine (charges_evalAll fun e he ↦ ih e he env).bind fun vs ↦
      ⟨_, charges_pure (Value.list vs), .inr ?_⟩
    rw [Value.weight, footprint]
    omega
  | comprehension element clauses ihe ihc =>
    rw [eval_comprehension]
    have hbuild (env : Env) := charges_buildElement (ihe env)
    refine (charges_evalClauses hbuild ihc env).bind fun vs ↦
      ⟨_, charges_pure (Value.list vs), .inr ?_⟩
    rw [Value.weight, footprint]
  | range args ih =>
    exact (charges_evalAll fun e he ↦ ih e he env).seq charges_rangeOf

end Expr

/-! ### Single values -/

/-- Every variable in force is a single value: a number, a truth value or an empty sequence. -/
def Env.Single (env : Env) : Prop :=
  ∀ word v, env.locals.lookup word = some v → v.weight = 1

theorem Env.single_ofBoard (b : Bindings) : (ofBoard b).Single := by
  intro word v h
  cases h

namespace Expr

theorem totalFootprint_le {env : Env} {items : List Expr}
    (h : ∀ e ∈ items, e.footprint env ≤ e.size) :
    totalFootprint env items ≤ (items.map size).sum := by
  induction items with
  | nil => exact le_rfl
  | cons e es ih =>
    obtain ⟨he, hes⟩ := List.forall_mem_cons.1 h
    rw [totalFootprint, List.map_cons, List.sum_cons]
    exact Nat.add_le_add he (ih hes)

/-- Where variables are single values, what is copied are nodes of the text. -/
theorem footprint_le_size {env : Env} (henv : env.Single) (e : Expr) :
    e.footprint env ≤ e.size := by
  induction e with
  | name word =>
    rw [footprint]
    split
    · next v hv =>
      rw [henv word v hv]
      exact one_le_size _
    · exact one_le_size _
  | binary op lhs rhs ihl ihr =>
    have hlhs : lhs.size < (binary op lhs rhs).size :=
      size_lt_of_mem_children (by simp [children, parts])
    exact ihl.trans hlhs.le
  | logic op lhs rhs ihl ihr =>
    have hlhs : lhs.size < (logic op lhs rhs).size :=
      size_lt_of_mem_children (by simp [children, parts])
    have hrhs : rhs.size < (logic op lhs rhs).size :=
      size_lt_of_mem_children (by simp [children, parts])
    exact max_le (ihl.trans hlhs.le) (ihr.trans hrhs.le)
  | conditional value condition otherwise ihv ihc iho =>
    have hvalue : value.size < (conditional value condition otherwise).size :=
      size_lt_of_mem_children (by simp [children, parts])
    have hotherwise : otherwise.size < (conditional value condition otherwise).size :=
      size_lt_of_mem_children (by simp [children, parts])
    exact max_le (ihv.trans hvalue.le) (iho.trans hotherwise.le)
  | tuple items ih =>
    rw [footprint, size_tuple]
    exact Nat.succ_le_succ (totalFootprint_le ih)
  | list items ih =>
    rw [footprint, size_list]
    exact Nat.succ_le_succ (totalFootprint_le ih)
  | number value => exact one_le_size _
  | unary op operand ih => exact one_le_size _
  | compare first links ihf ihl => exact one_le_size _
  | comprehension element clauses ihe ihc => exact one_le_size _
  | range args ih => exact one_le_size _

/-- Where variables are single values, a value weighs at most the budget and the nodes of its
expression. -/
theorem weight_le_of_single {e : Expr} {env : Env} {b b' : Nat} {v : Value} (henv : env.Single)
    (h : e.eval env b = .ok (v, b')) : v.weight ≤ b + e.size := by
  have hcharges := ((e.charges_eval env).of_eq_ok h).2
  have hfootprint := footprint_le_size henv e
  omega

/-- The value of an expression weighs at most the budget and the nodes of the expression. -/
theorem weight_le_of_evaluate {e : Expr} {b : Bindings} {v : Value} (h : e.evaluate b = .ok v) :
    v.weight ≤ maxValues + e.size := by
  cases heval : e.eval (.ofBoard b) maxValues with
  | error fault =>
    rw [evaluate, StateT.run', heval] at h
    cases h
  | ok p =>
    rw [evaluate, StateT.run', heval] at h
    obtain rfl := Except.ok.inj h
    exact weight_le_of_single (Env.single_ofBoard b) heval

end Expr

/-! ### Waypoints -/

namespace Value

mutual

theorem length_numbers_le_weight : (v : Value) → v.numbers.length ≤ v.weight
  | number _ => le_rfl
  | bool _ => Nat.zero_le _
  | tuple items => (length_allNumbers_le_totalWeight items).trans (Nat.le_succ _)
  | list items => (length_allNumbers_le_totalWeight items).trans (Nat.le_succ _)

theorem length_allNumbers_le_totalWeight : (vs : List Value) →
    (allNumbers vs).length ≤ totalWeight vs
  | [] => le_rfl
  | v :: vs => by
    rw [allNumbers, List.length_append, totalWeight]
    exact Nat.add_le_add (length_numbers_le_weight v) (length_allNumbers_le_totalWeight vs)

end

theorem length_flatMap_components (path : Path) :
    (path.flatMap Point.components).length = path.length * 2 := by
  induction path with
  | nil => rfl
  | cons p path ih =>
    rw [List.flatMap_cons, List.length_append, ih, List.length_cons, Nat.succ_mul, Nat.add_comm]
    rfl

/-- A value has no more waypoints than it is built from values: each takes two of its numbers. -/
theorem length_paths_le_weight {v : Value} {paths : List Path} (h : v.toPaths? = some paths) :
    (paths.map List.length).sum ≤ v.weight := by
  obtain ⟨s, hshape⟩ := toPaths?_eq_some_iff.1 h
  have hnumbers : v.numbers.length = paths.flatten.length * 2 := by
    rw [← hshape.numbers_eq, length_flatMap_components]
  have hweight := v.length_numbers_le_weight
  rw [← List.length_flatten]
  omega

end Value

/-- The value of an expression weighs at most 65536, which is the budget, and the nodes of the
expression, and the paths of a formula have at most so many waypoints together. -/
theorem result_bounded (b : Bindings) :
    (∀ e v, Expr.evaluate e b = .ok v → v.weight ≤ 65536 + e.size) ∧
      ∀ f paths, Formula.relativePaths f b = .ok paths →
        (paths.map List.length).sum ≤ 65536 + f.expr.size := by
  constructor
  · intro e v h
    exact Expr.weight_le_of_evaluate h
  · intro f paths h
    unfold Formula.relativePaths at h
    split at h
    · cases h
    · next v hv =>
      split at h
      · next paths' hpaths =>
        obtain rfl := Except.ok.inj h
        exact (Value.length_paths_le_weight hpaths).trans (Expr.weight_le_of_evaluate hv)
      · cases h

/-- The tree of `[(x + i, y) for i in range(1, w) if i != y]`. -/
def stepsExpr : Expr :=
  .comprehension (.tuple [.binary .add (.name "x") (.name "i"), .name "y"])
    [.mk "i" (.range [.number 1, .name "w"]) [.compare (.name "i") [.mk .ne (.name "y")]]]

/-- Six coordinates in a list are nineteen values. -/
theorem result_bounded_steps :
    ∃ v, stepsExpr.evaluate ⟨2, 3, 8, 8, false⟩ = .ok v ∧ v.weight = 19 ∧
      v.weight ≤ 65536 + stepsExpr.size := by
  obtain ⟨v, hv, hweight⟩ :
      ∃ v, stepsExpr.evaluate ⟨2, 3, 8, 8, false⟩ = .ok v ∧ v.weight = 19 := by decide +kernel
  exact ⟨v, hv, hweight, (result_bounded ⟨2, 3, 8, 8, false⟩).1 _ _ hv⟩

end Waypoints
