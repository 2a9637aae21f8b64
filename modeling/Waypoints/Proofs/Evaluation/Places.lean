import Mathlib.Logic.Relation
import Waypoints.Proofs.Evaluation.Footprint
/-!
# The places of an evaluation

A `Place` is an expression with the environment and the budget it is evaluated with. `Calls` relates
a place to those whose values its evaluation asks for, one constructor for each call that
`Expr.eval` makes, and `Visits` is its closure: the places of a whole run. What a step keeps
(`Calls.mem_children`, `Calls.budget_le`) holds along a run by induction (`Visits.size_le`,
`Visits.budget_le`).
-/

set_option autoImplicit false
set_option relaxedAutoImplicit false

namespace Waypoints

/-- An expression, the environment and the budget it is evaluated with. -/
structure Place where
  expr : Expr
  env : Env
  budget : Nat

namespace Place

/-- The place of a whole expression. -/
def start (e : Expr) (b : Bindings) : Place :=
  ⟨e, .ofBoard b, maxValues⟩

/-- The evaluation at a place has this value and leaves this budget. -/
def Returns (p : Place) (v : Value) (left : Nat) : Prop :=
  p.expr.eval p.env p.budget = .ok (v, left)

end Place

/-! ### Calls -/

/-- The calls of a row of expressions, which goes on after a value for as long as `goes` says. -/
inductive RowCalls (goes : Value → Bool) (env : Env) : List Expr → Nat → Place → Prop
  | head {e : Expr} {es : List Expr} {b : Nat} : RowCalls goes env (e :: es) b ⟨e, env, b⟩
  | tail {e : Expr} {es : List Expr} {b b' : Nat} {v : Value} {p : Place} :
      e.eval env b = .ok (v, b') → goes v → RowCalls goes env es b' p →
      RowCalls goes env (e :: es) b p

/-- The calls of a chain of comparisons, which goes on for as long as they hold. -/
inductive LinkCalls (env : Env) : List Link → Value → Nat → Place → Prop
  | head {l : Link} {links : List Link} {lhs : Value} {b : Nat} :
      LinkCalls env (l :: links) lhs b ⟨l.operand, env, b⟩
  | tail {op : CompareOp} {operand : Expr} {links : List Link} {lhs rhs : Value} {b b' : Nat}
      {p : Place} :
      operand.eval env b = .ok (rhs, b') → op.holds lhs rhs = .ok true →
      LinkCalls env links rhs b' p → LinkCalls env (.mk op operand :: links) lhs b p

/-- A clause comes to an item with a budget, after the items before it. -/
def Reaches (element : Expr) (c : Clause) (clauses : List Clause) (env : Env) (b : Nat)
    (item : Value) (left : Nat) : Prop :=
  ∃ v b' before after built, c.items.eval env b = .ok (v, b') ∧
    v.items? = some (before ++ item :: after) ∧
    before.mapM (Expr.evalItem (Expr.buildElement element) c clauses env) b' = .ok (built, left)

/-- The calls of the clauses of a comprehension: what each runs over, its conditions for each item,
and the element for each choice of items. -/
inductive ClauseCalls (element : Expr) : List Clause → Env → Nat → Place → Prop
  | element {env : Env} {b : Nat} : ClauseCalls element [] env b ⟨element, env, b⟩
  | items {c : Clause} {clauses : List Clause} {env : Env} {b : Nat} :
      ClauseCalls element (c :: clauses) env b ⟨c.items, env, b⟩
  | filter {c : Clause} {clauses : List Clause} {env : Env} {b b' : Nat} {item : Value}
      {p : Place} :
      Reaches element c clauses env b item b' →
      RowCalls Value.isTruthy (env.bind c.loopVar item) c.filters b' p →
      ClauseCalls element (c :: clauses) env b p
  | inner {c : Clause} {clauses : List Clause} {env : Env} {b b' b'' : Nat} {item : Value}
      {p : Place} :
      Reaches element c clauses env b item b' →
      Expr.evalFilters c.filters (env.bind c.loopVar item) b' = .ok (true, b'') →
      ClauseCalls element clauses (env.bind c.loopVar item) b'' p →
      ClauseCalls element (c :: clauses) env b p

/-- The evaluation at a place asks for the value at another one. -/
inductive Calls : Place → Place → Prop
  | unary {op : UnaryOp} {operand : Expr} {env : Env} {b : Nat} :
      Calls ⟨.unary op operand, env, b⟩ ⟨operand, env, b⟩
  | binary {op : BinaryOp} {lhs rhs : Expr} {env : Env} {b : Nat} {p : Place} :
      RowCalls (fun _ ↦ true) env [lhs, rhs] b p → Calls ⟨.binary op lhs rhs, env, b⟩ p
  | compareFirst {first : Expr} {links : List Link} {env : Env} {b : Nat} :
      Calls ⟨.compare first links, env, b⟩ ⟨first, env, b⟩
  | compareLinks {first : Expr} {links : List Link} {env : Env} {b b' : Nat} {v : Value}
      {p : Place} :
      first.eval env b = .ok (v, b') → LinkCalls env links v b' p →
      Calls ⟨.compare first links, env, b⟩ p
  | logic {op : LogicOp} {lhs rhs : Expr} {env : Env} {b : Nat} {p : Place} :
      RowCalls (fun v ↦ !op.decides v) env [lhs, rhs] b p → Calls ⟨.logic op lhs rhs, env, b⟩ p
  | condition {value condition otherwise : Expr} {env : Env} {b : Nat} :
      Calls ⟨.conditional value condition otherwise, env, b⟩ ⟨condition, env, b⟩
  | branch {value condition otherwise : Expr} {env : Env} {b b' : Nat} {v : Value} :
      condition.eval env b = .ok (v, b') →
      Calls ⟨.conditional value condition otherwise, env, b⟩
        ⟨if v.isTruthy then value else otherwise, env, b'⟩
  | tuple {items : List Expr} {env : Env} {b : Nat} {p : Place} :
      RowCalls (fun _ ↦ true) env items b p → Calls ⟨.tuple items, env, b⟩ p
  | list {items : List Expr} {env : Env} {b : Nat} {p : Place} :
      RowCalls (fun _ ↦ true) env items b p → Calls ⟨.list items, env, b⟩ p
  | comprehension {element : Expr} {clauses : List Clause} {env : Env} {b : Nat} {p : Place} :
      ClauseCalls element clauses env b p → Calls ⟨.comprehension element clauses, env, b⟩ p
  | range {args : List Expr} {env : Env} {b : Nat} {p : Place} :
      RowCalls (fun _ ↦ true) env args b p → Calls ⟨.range args, env, b⟩ p

/-- The places of the run that starts at a place. -/
def Visits : Place → Place → Prop :=
  Relation.ReflTransGen Calls

/-! ### What calls keep -/

section Steps

variable {env : Env} {b : Nat} {p q : Place}

theorem budget_le_of_eval {e : Expr} {b' : Nat} {v : Value} (h : e.eval env b = .ok (v, b')) :
    b' ≤ b :=
  ((e.charges_eval env).of_eq_ok h).1

theorem RowCalls.mem {goes : Value → Bool} {es : List Expr} (h : RowCalls goes env es b p) :
    p.expr ∈ es := by
  induction h with
  | head => exact List.mem_cons_self
  | tail _ _ _ ih => exact List.mem_cons_of_mem _ ih

theorem RowCalls.budget_le {goes : Value → Bool} {es : List Expr} (h : RowCalls goes env es b p) :
    p.budget ≤ b := by
  induction h with
  | head => exact le_rfl
  | tail heval _ _ ih => exact ih.trans (budget_le_of_eval heval)

theorem RowCalls.env_eq {goes : Value → Bool} {es : List Expr} (h : RowCalls goes env es b p) :
    p.env = env := by
  induction h with
  | head => rfl
  | tail _ _ _ ih => exact ih

theorem LinkCalls.mem {links : List Link} {lhs : Value} (h : LinkCalls env links lhs b p) :
    p.expr ∈ links.map Link.operand := by
  induction h with
  | head => exact List.mem_cons_self
  | tail _ _ _ ih => exact List.mem_cons_of_mem _ ih

theorem LinkCalls.budget_le {links : List Link} {lhs : Value} (h : LinkCalls env links lhs b p) :
    p.budget ≤ b := by
  induction h with
  | head => exact le_rfl
  | tail heval _ _ ih => exact ih.trans (budget_le_of_eval heval)

theorem LinkCalls.env_eq {links : List Link} {lhs : Value} (h : LinkCalls env links lhs b p) :
    p.env = env := by
  induction h with
  | head => rfl
  | tail _ _ _ ih => exact ih

/-- An item of a clause is part of the value that the clause runs over. -/
theorem Reaches.weight_lt {element : Expr} {c : Clause} {clauses : List Clause} {item : Value}
    {left : Nat} (h : Reaches element c clauses env b item left) :
    ∃ v b', c.items.eval env b = .ok (v, b') ∧ item.weight < v.weight := by
  obtain ⟨v, b', before, after, built, heval, hitems, -⟩ := h
  refine ⟨v, b', heval, ?_⟩
  rw [Value.weight_of_items? hitems, Value.totalWeight_append, Value.totalWeight]
  omega

theorem Reaches.budget_le {element : Expr} {c : Clause} {clauses : List Clause} {item : Value}
    {left : Nat} (h : Reaches element c clauses env b item left) : left ≤ b := by
  obtain ⟨v, b', before, after, built, heval, -, hbefore⟩ := h
  have hbuild (env : Env) := Expr.charges_buildElement (element.charges_eval env)
  have hclauses (env : Env) : Charges (Expr.evalClauses (Expr.buildElement element) clauses env)
      Value.totalWeight 0 :=
    Expr.charges_evalClauses hbuild (fun c _ ↦ ⟨c.items.charges_eval, fun e _ ↦ e.charges_eval⟩) env
  have hrow := charges_mapM fun item (_ : item ∈ before) ↦
    Expr.charges_evalItem (c := c) (fun e _ ↦ e.charges_eval _) (hclauses (env.bind c.loopVar item))
  exact (hrow.of_eq_ok hbefore).1.trans (budget_le_of_eval heval)

theorem budget_le_of_evalFilters {filters : List Expr} {holds : Bool} {b' : Nat}
    (h : Expr.evalFilters filters env b = .ok (holds, b')) : b' ≤ b := by
  have hcharges : Charges (Expr.evalFilters filters env) (fun _ ↦ 0) 0 :=
    Expr.charges_evalFilters fun e _ ↦ e.charges_eval env
  exact (hcharges.of_eq_ok h).1

section Clauses

variable {element : Expr} {clauses : List Clause}

theorem ClauseCalls.mem (h : ClauseCalls element clauses env b p) :
    p.expr ∈ element :: clauses.flatMap fun c ↦ c.items :: c.filters := by
  induction h with
  | element => exact List.mem_cons_self
  | items => exact List.mem_cons_of_mem _ (List.mem_cons_self ..)
  | filter _ hrow =>
    exact List.mem_cons_of_mem _ (List.mem_cons_of_mem _ (List.mem_append_left _ hrow.mem))
  | inner _ _ _ ih =>
    rcases List.mem_cons.1 ih with hp | hp
    · rw [hp]
      exact List.mem_cons_self
    · exact List.mem_cons_of_mem _ (List.mem_append_right _ hp)

theorem ClauseCalls.budget_le (h : ClauseCalls element clauses env b p) : p.budget ≤ b := by
  induction h with
  | element => exact le_rfl
  | items => exact le_rfl
  | filter hreaches hrow => exact hrow.budget_le.trans hreaches.budget_le
  | inner hreaches hfilters _ ih =>
    exact (ih.trans (budget_le_of_evalFilters hfilters)).trans hreaches.budget_le

/-- A variable that a clause binds weighs less than what the clause runs over. -/
theorem ClauseCalls.weight_lt (h : ClauseCalls element clauses env b p) :
    ∀ entry ∈ p.env.locals, entry ∈ env.locals ∨ ∃ r v left,
      ClauseCalls element clauses env b r ∧ r.Returns v left ∧ entry.2.weight < v.weight := by
  induction h with
  | element => exact fun entry hentry ↦ .inl hentry
  | items => exact fun entry hentry ↦ .inl hentry
  | filter hreaches hrow =>
    intro entry hentry
    rw [hrow.env_eq] at hentry
    rcases List.mem_cons.1 hentry with rfl | hentry
    · obtain ⟨v, b', heval, hlt⟩ := hreaches.weight_lt
      exact .inr ⟨_, v, b', .items, heval, hlt⟩
    · exact .inl hentry
  | inner hreaches hfilters _ ih =>
    intro entry hentry
    rcases ih entry hentry with hbound | ⟨r, v, left, hr, hreturns, hlt⟩
    · rcases List.mem_cons.1 hbound with rfl | hbound
      · obtain ⟨v, b', heval, hlt⟩ := hreaches.weight_lt
        exact .inr ⟨_, v, b', .items, heval, hlt⟩
      · exact .inl hbound
    · exact .inr ⟨r, v, left, .inner hreaches hfilters hr, hreturns, hlt⟩

end Clauses

/-- What is called is a child of the expression at a place. -/
theorem Calls.mem_children (h : Calls p q) : q.expr ∈ p.expr.children := by
  cases h with
  | unary => exact List.mem_cons_self
  | binary hrow => exact Expr.mem_children_of_mem_parts hrow.mem
  | compareFirst => exact List.mem_cons_self
  | compareLinks _ hlinks =>
    exact Expr.mem_children_of_mem_parts (List.mem_cons_of_mem _ hlinks.mem)
  | logic hrow => exact Expr.mem_children_of_mem_parts hrow.mem
  | condition => exact List.mem_cons_of_mem _ List.mem_cons_self
  | @branch value condition otherwise env b b' v heval =>
    dsimp only
    split
    · exact List.mem_cons_self
    · exact List.mem_cons_of_mem _ (List.mem_cons_of_mem _ List.mem_cons_self)
  | tuple hrow => exact Expr.mem_children_of_mem_parts hrow.mem
  | list hrow => exact Expr.mem_children_of_mem_parts hrow.mem
  | comprehension hclauses => exact hclauses.mem
  | range hrow => exact Expr.mem_children_of_mem_parts hrow.mem

theorem Calls.budget_le (h : Calls p q) : q.budget ≤ p.budget := by
  cases h with
  | unary => exact le_rfl
  | binary hrow => exact hrow.budget_le
  | compareFirst => exact le_rfl
  | compareLinks heval hlinks => exact hlinks.budget_le.trans (budget_le_of_eval heval)
  | logic hrow => exact hrow.budget_le
  | condition => exact le_rfl
  | branch heval => exact budget_le_of_eval heval
  | tuple hrow => exact hrow.budget_le
  | list hrow => exact hrow.budget_le
  | comprehension hclauses => exact hclauses.budget_le
  | range hrow => exact hrow.budget_le

/-- A variable in force at a call is in force at the place or weighs less than a value that the
place asks for. -/
theorem Calls.weight_lt (h : Calls p q) : ∀ entry ∈ q.env.locals, entry ∈ p.env.locals ∨
    ∃ r v left, Calls p r ∧ r.Returns v left ∧ entry.2.weight < v.weight := by
  intro entry hentry
  cases h with
  | unary => exact .inl hentry
  | binary hrow | logic hrow | tuple hrow | list hrow | range hrow =>
    rw [hrow.env_eq] at hentry
    exact .inl hentry
  | compareFirst => exact .inl hentry
  | compareLinks _ hlinks =>
    rw [hlinks.env_eq] at hentry
    exact .inl hentry
  | condition => exact .inl hentry
  | branch => exact .inl hentry
  | comprehension hclauses =>
    rcases hclauses.weight_lt entry hentry with hentry | ⟨r, v, left, hr, hreturns, hlt⟩
    · exact .inl hentry
    · exact .inr ⟨r, v, left, .comprehension hr, hreturns, hlt⟩

/-! ### What runs keep -/

theorem Visits.size_le (h : Visits p q) : q.expr.size ≤ p.expr.size := by
  induction h with
  | refl => exact le_rfl
  | tail _ hcalls ih => exact (Expr.size_lt_of_mem_children hcalls.mem_children).le.trans ih

/-- The places of a run are at the nodes of its tree. -/
theorem Visits.contains (h : Visits p q) : p.expr.Contains q.expr := by
  induction h with
  | refl => exact .refl
  | tail _ hcalls ih => exact ih.tail hcalls.mem_children

theorem Visits.budget_le (h : Visits p q) : q.budget ≤ p.budget := by
  induction h with
  | refl => exact le_rfl
  | tail _ hcalls ih => exact hcalls.budget_le.trans ih

/-- A variable in force at a place of a run is in force at its start or weighs less than a value of
the run. -/
theorem Visits.weight_lt (h : Visits p q) : ∀ entry ∈ q.env.locals, entry ∈ p.env.locals ∨
    ∃ r v left, Visits p r ∧ r.Returns v left ∧ entry.2.weight < v.weight := by
  induction h with
  | refl => exact fun entry hentry ↦ .inl hentry
  | tail hvisits hcalls ih =>
    intro entry hentry
    rcases hcalls.weight_lt entry hentry with hentry | ⟨r, v, left, hr, hreturns, hlt⟩
    · exact ih entry hentry
    · exact .inr ⟨r, v, left, hvisits.tail hr, hreturns, hlt⟩

end Steps

end Waypoints
