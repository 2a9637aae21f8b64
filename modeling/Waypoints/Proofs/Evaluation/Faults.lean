import Mathlib.Tactic.SplitIfs
import Waypoints.Proofs.Evaluation.Places
/-!
# Where faults come from

A place that calls a place which fails, fails with the same fault, and so does the start of a run
that comes to such a place (`Visits.fails`). In the other direction, the operations on values raise
neither the faults that come from names nor, if a range has one to three arguments, the one of its
number of arguments. So a run that fails with such a fault comes to a name that has it or to a range
with another number of arguments (`Place.Fails.exists_origin`), and it fails with a fault of a name
exactly if it comes to a name that has it (`Place.fails_iff`).
-/

set_option autoImplicit false
set_option relaxedAutoImplicit false

namespace Waypoints

/-- The evaluation at a place fails with this fault. -/
def Place.Fails (p : Place) (fault : EvalFault) : Prop :=
  p.expr.eval p.env p.budget = .error fault

/-! ### From a called place to the place that calls it -/

section Propagation

open StateT (bind_eq_error_iff bind_of_ok)

variable {env : Env} {b : Nat} {q : Place} {fault : EvalFault}

/-- The calls of a row of two. -/
theorem rowCalls_pair_iff {goes : Value → Bool} {lhs rhs : Expr} :
    RowCalls goes env [lhs, rhs] b q ↔ q = ⟨lhs, env, b⟩ ∨
      ∃ v b', lhs.eval env b = .ok (v, b') ∧ goes v ∧ q = ⟨rhs, env, b'⟩ := by
  constructor
  · intro h
    cases h with
    | head => exact .inl rfl
    | tail heval hgoes hrow =>
      cases hrow with
      | head => exact .inr ⟨_, _, heval, hgoes, rfl⟩
      | tail _ _ hnil => cases hnil
  · rintro (rfl | ⟨v, b', heval, hgoes, rfl⟩)
    · exact .head
    · exact .tail heval hgoes .head

theorem RowCalls.evalAll_eq_error {goes : Value → Bool} {es : List Expr}
    (h : RowCalls goes env es b q) (hq : q.Fails fault) :
    Expr.evalAll es env b = .error fault := by
  induction h with
  | head => exact bind_eq_error_iff.2 (.inl hq)
  | tail heval _ _ ih =>
    exact bind_eq_error_iff.2 (.inr ⟨_, _, heval, bind_eq_error_iff.2 (.inl (ih hq))⟩)

theorem RowCalls.evalFilters_eq_error {es : List Expr} (h : RowCalls Value.isTruthy env es b q)
    (hq : q.Fails fault) : Expr.evalFilters es env b = .error fault := by
  induction h with
  | head => exact bind_eq_error_iff.2 (.inl hq)
  | tail heval hgoes _ ih =>
    refine bind_eq_error_iff.2 (.inr ⟨_, _, heval, ?_⟩)
    rw [if_pos hgoes]
    exact ih hq

theorem LinkCalls.evalLinks_eq_error {links : List Link} {lhs : Value}
    (h : LinkCalls env links lhs b q) (hq : q.Fails fault) :
    Expr.evalLinks links env lhs b = .error fault := by
  induction h with
  | @head l => 
    obtain ⟨op, operand⟩ := l
    exact bind_eq_error_iff.2 (.inl hq)
  | tail heval hholds _ ih =>
    refine bind_eq_error_iff.2 (.inr ⟨_, _, heval, ?_⟩)
    rw [hholds]
    exact ih hq

section Clauses

variable {element : Expr} {c : Clause} {clauses : List Clause}

/-- A clause that comes to an item at which a step fails, fails. -/
theorem Reaches.evalClauses_eq_error {item : Value} {left : Nat}
    (h : Reaches element c clauses env b item left)
    (hitem : Expr.evalItem (Expr.buildElement element) c clauses env item left = .error fault) :
    Expr.evalClauses (Expr.buildElement element) (c :: clauses) env b = .error fault := by
  obtain ⟨v, b', before, after, built, heval, hitems, hbefore⟩ := h
  have hiterate : iterate v = .ok (before ++ item :: after) := by rw [iterate, hitems]
  have hrun : (before ++ item :: after).mapM
      (Expr.evalItem (Expr.buildElement element) c clauses env) b' = .error fault :=
    StateT.mapM_eq_error_iff.2 ⟨before, item, after, built, left, rfl, hbefore, hitem⟩
  rw [Expr.evalClauses_cons, bind_of_ok heval, hiterate]
  exact bind_eq_error_iff.2 (.inr ⟨_, b', rfl, bind_eq_error_iff.2 (.inl hrun)⟩)

theorem ClauseCalls.evalClauses_eq_error (h : ClauseCalls element clauses env b q)
    (hq : q.Fails fault) :
    Expr.evalClauses (Expr.buildElement element) clauses env b = .error fault := by
  induction h with
  | element => exact bind_eq_error_iff.2 (.inl hq)
  | items =>
    rw [Expr.evalClauses_cons]
    exact bind_eq_error_iff.2 (.inl hq)
  | filter hreaches hrow =>
    exact hreaches.evalClauses_eq_error (bind_eq_error_iff.2 (.inl (hrow.evalFilters_eq_error hq)))
  | inner hreaches hfilters _ ih =>
    refine hreaches.evalClauses_eq_error (bind_eq_error_iff.2 (.inr ⟨_, _, hfilters, ?_⟩))
    rw [if_pos rfl]
    exact ih hq

end Clauses

/-- A place that calls a place which fails, fails with the same fault. -/
theorem Calls.fails {p : Place} (h : Calls p q) (hq : q.Fails fault) : p.Fails fault := by
  cases h with
  | unary => exact bind_eq_error_iff.2 (.inl hq)
  | binary hrow =>
    rcases rowCalls_pair_iff.1 hrow with rfl | ⟨v, b', heval, -, rfl⟩
    · exact bind_eq_error_iff.2 (.inl hq)
    · exact bind_eq_error_iff.2 (.inr ⟨v, b', heval, bind_eq_error_iff.2 (.inl hq)⟩)
  | compareFirst => exact bind_eq_error_iff.2 (.inl hq)
  | compareLinks heval hlinks =>
    exact bind_eq_error_iff.2 (.inr ⟨_, _, heval,
      bind_eq_error_iff.2 (.inl (hlinks.evalLinks_eq_error hq))⟩)
  | logic hrow =>
    rcases rowCalls_pair_iff.1 hrow with rfl | ⟨v, b', heval, hgoes, rfl⟩
    · exact bind_eq_error_iff.2 (.inl hq)
    · refine bind_eq_error_iff.2 (.inr ⟨v, b', heval, ?_⟩)
      rw [Bool.not_eq_true'] at hgoes
      rwa [if_neg (Bool.eq_false_iff.1 hgoes)]
  | condition => exact bind_eq_error_iff.2 (.inl hq)
  | branch heval =>
    refine bind_eq_error_iff.2 (.inr ⟨_, _, heval, ?_⟩)
    unfold Place.Fails at hq
    dsimp only at hq
    split at hq
    · next htruthy => rwa [if_pos htruthy]
    · next htruthy => rwa [if_neg htruthy]
  | tuple hrow => exact bind_eq_error_iff.2 (.inl (hrow.evalAll_eq_error hq))
  | list hrow => exact bind_eq_error_iff.2 (.inl (hrow.evalAll_eq_error hq))
  | comprehension hclauses =>
    unfold Place.Fails
    dsimp only
    rw [Expr.eval_comprehension]
    exact bind_eq_error_iff.2 (.inl (hclauses.evalClauses_eq_error hq))
  | range hrow => exact bind_eq_error_iff.2 (.inl (hrow.evalAll_eq_error hq))

/-- A run that comes to a place which fails, fails with the same fault. -/
theorem Visits.fails {p : Place} (h : Visits p q) (hq : q.Fails fault) : p.Fails fault := by
  induction h using Relation.ReflTransGen.head_induction_on with
  | refl => exact hq
  | head hcalls _ ih => exact hcalls.fails ih

end Propagation

/-! ### From a place that fails to the one it fails at -/

open StateT (Ensures ensures_bind ensures_ite ensures_get ensures_modify ensures_liftM)

/-- The faults that come from values. The others are settled by an expression and the names in
force. -/
def EvalFault.isOperational : EvalFault → Bool
  | wildcardNotAllowed | unknownName _ | rangeArity => false
  | _ => true

theorem EvalFault.isOperational_of_isBinding {fault : EvalFault}
    (h : fault.errorClass.isBinding) : fault.isOperational = false := by
  cases fault <;> first | rfl | cases h

/-- The faults of a step come from values. -/
def Operational {α : Type} (x : EvalM α) : Prop :=
  ∀ b, x.Ensures b (fun _ _ ↦ True) fun fault ↦ fault.isOperational

section Operations

variable {α β : Type}

theorem Operational.eq_true {x : EvalM α} (h : Operational x) {b : Nat} {fault : EvalFault}
    (hx : x b = .error fault) : fault.isOperational := by
  have hb := h b
  rwa [Ensures, hx] at hb

theorem operational_pure (a : α) : Operational (pure a) :=
  fun _ ↦ trivial

theorem operational_throw {fault : EvalFault} (h : fault.isOperational) :
    Operational (throw fault : EvalM α) :=
  fun _ ↦ h

theorem operational_liftM {x : Except EvalFault α}
    (h : ∀ fault, x = .error fault → fault.isOperational) :
    Operational (liftM x : EvalM α) := by
  intro b
  rw [ensures_liftM]
  rcases x with fault | a
  · exact h fault rfl
  · trivial

theorem Operational.bind {x : EvalM α} {f : α → EvalM β} (hx : Operational x)
    (hf : ∀ a, Operational (f a)) : Operational (x >>= f) := by
  intro b
  rw [ensures_bind]
  exact (hx b).mono (fun a b' _ ↦ hf a b') fun _ h ↦ h

theorem operational_spend (values : Nat) : Operational (spend values) := by
  intro b
  rw [spend, ensures_bind, ensures_get, ensures_ite]
  split
  · trivial
  · exact rfl

theorem operational_unary (op : UnaryOp) (v : Value) :
    Operational (liftM (op.apply v) : EvalM Value) := by
  refine operational_liftM fun fault h ↦ ?_
  cases op with
  | not => cases h
  | plus | minus =>
    cases v <;> cases h <;> rfl

theorem eq_of_nonzero {y result : Float} {fault fault' : EvalFault}
    (h : nonzero y fault result = .error fault') : fault' = fault := by
  unfold nonzero at h
  split_ifs at h
  exact (Except.error.inj h).symm

theorem isOperational_of_compute {op : BinaryOp} {x y : Float} {fault : EvalFault}
    (h : op.compute x y = .error fault) : fault.isOperational := by
  cases op with
  | add | sub | mul | pow => cases h
  | div | floorDiv | mod =>
    obtain rfl := eq_of_nonzero h
    rfl

theorem isOperational_of_arithmetic {op : BinaryOp} {x y : Float} {fault : EvalFault}
    (h : op.arithmetic x y = .error fault) : fault.isOperational := by
  unfold BinaryOp.arithmetic at h
  cases hcompute : op.compute x y with
  | error fault' =>
    rw [hcompute] at h
    obtain rfl := Except.error.inj h
    exact isOperational_of_compute hcompute
  | ok result =>
    rw [hcompute] at h
    change (if _ then _ else _) = _ at h
    split_ifs at h
    · obtain rfl := Except.error.inj h
      rfl
    · cases h

theorem operational_binary (op : BinaryOp) (lhs rhs : Value) : Operational (op.apply lhs rhs) := by
  unfold BinaryOp.apply
  split
  · exact (operational_spend _).bind fun _ ↦ operational_pure _
  · exact (operational_spend _).bind fun _ ↦ operational_pure _
  · refine operational_liftM fun fault h ↦ ?_
    unfold BinaryOp.onNumbers at h
    split at h
    · next x y _ _ =>
      cases harithmetic : BinaryOp.arithmetic _ x y with
      | error fault' =>
        rw [harithmetic] at h
        obtain rfl := Except.error.inj h
        exact isOperational_of_arithmetic harithmetic
      | ok result =>
        rw [harithmetic] at h
        cases h
    · obtain rfl := Except.error.inj h
      rfl

theorem operational_ordered (before : Float → Float → Bool) (lhs rhs : Value) :
    Operational (liftM (ordered before lhs rhs) : EvalM Bool) := by
  refine operational_liftM fun fault h ↦ ?_
  unfold ordered at h
  split at h
  · cases h
  · obtain rfl := Except.error.inj h
    rfl

theorem operational_holds (op : CompareOp) (lhs rhs : Value) :
    Operational (liftM (op.holds lhs rhs) : EvalM Bool) := by
  cases op with
  | eq | ne => exact operational_pure _
  | lt | le | gt | ge => exact operational_ordered _ lhs rhs

theorem operational_iterate (v : Value) : Operational (liftM (iterate v) : EvalM (List Value)) := by
  refine operational_liftM fun fault h ↦ ?_
  cases v <;> cases h <;> rfl

theorem operational_rangeArgument (v : Value) :
    Operational (liftM (rangeArgument v) : EvalM Float) := by
  refine operational_liftM fun fault h ↦ ?_
  unfold rangeArgument at h
  split at h
  · split_ifs at h
    obtain rfl := Except.error.inj h
    rfl
  · obtain rfl := Except.error.inj h
    rfl

theorem operational_build (p : Progression) : Operational p.build := by
  unfold Progression.build
  split_ifs
  · exact operational_throw rfl
  · exact operational_throw rfl
  · exact (operational_spend _).bind fun _ ↦ operational_pure _

/-- Assumes: there are one to three arguments. -/
theorem operational_rangeOf {args : List Value} (hne : args ≠ []) (hle : args.length ≤ 3) :
    Operational (rangeOf args) := by
  match args with
  | [a] =>
    simp only [rangeOf, List.mapM_cons, List.mapM_nil, bind_assoc, pure_bind]
    exact (operational_rangeArgument a).bind fun x ↦ operational_build _
  | [a, b] =>
    simp only [rangeOf, List.mapM_cons, List.mapM_nil, bind_assoc, pure_bind]
    exact (operational_rangeArgument a).bind fun x ↦ (operational_rangeArgument b).bind fun y ↦
      operational_build _
  | [a, b, c] =>
    simp only [rangeOf, List.mapM_cons, List.mapM_nil, bind_assoc, pure_bind]
    exact (operational_rangeArgument a).bind fun x ↦ (operational_rangeArgument b).bind fun y ↦
      (operational_rangeArgument c).bind fun z ↦ operational_build _

/-- Besides the faults of values, a range may only have a wrong number of arguments. -/
theorem eq_rangeArity_of_rangeOf {args : List Value} {b : Nat} {fault : EvalFault}
    (hfault : fault.isOperational = false) (h : rangeOf args b = .error fault) :
    fault = .rangeArity := by
  have hargs : Operational (args.mapM fun v ↦ (liftM (rangeArgument v) : EvalM Float)) := by
    refine StateT.ensures_mapM (fun _ ↦ trivial) fun v _ b ↦ ?_
    exact (operational_rangeArgument v b).mono (fun _ _ _ _ _ _ ↦ trivial) fun _ h ↦ h
  have hrange : (rangeOf args).Ensures b (fun _ _ ↦ True)
      fun fault ↦ fault.isOperational = false → fault = .rangeArity := by
    rw [rangeOf, ensures_bind]
    refine (hargs b).mono (fun numbers b' _ ↦ ?_) fun fault h hfalse ↦ ?_
    · split
      · refine (operational_build _ b').mono (fun _ _ _ ↦ trivial) fun fault h hfalse ↦ ?_
        rw [h] at hfalse
        cases hfalse
      · exact fun _ ↦ rfl
    · rw [h] at hfalse
      cases hfalse
  rw [Ensures, h] at hrange
  exact hrange hfault

end Operations

section Origin

variable {env : Env} {b : Nat} {fault : EvalFault}

open StateT (bind_eq_error_iff bind_eq_ok_iff bind_of_ok)

theorem exists_of_evalAll {es : List Expr} (h : Expr.evalAll es env b = .error fault) :
    ∃ q, RowCalls (fun _ ↦ true) env es b q ∧ q.Fails fault := by
  induction es generalizing b with
  | nil => cases h
  | cons e es ih =>
    rcases bind_eq_error_iff.1 h with h | ⟨v, b', heval, h⟩
    · exact ⟨_, .head, h⟩
    rcases bind_eq_error_iff.1 h with h | ⟨vs, b'', -, h⟩
    · obtain ⟨q, hrow, hq⟩ := ih h
      exact ⟨q, .tail heval rfl hrow, hq⟩
    · cases h

theorem exists_of_evalFilters {es : List Expr} (h : Expr.evalFilters es env b = .error fault) :
    ∃ q, RowCalls Value.isTruthy env es b q ∧ q.Fails fault := by
  induction es generalizing b with
  | nil => cases h
  | cons e es ih =>
    rcases bind_eq_error_iff.1 h with h | ⟨v, b', heval, h⟩
    · exact ⟨_, .head, h⟩
    split at h
    · next htruthy =>
      obtain ⟨q, hrow, hq⟩ := ih h
      exact ⟨q, .tail heval htruthy hrow, hq⟩
    · cases h

theorem items?_of_iterate {v : Value} {run : List Value} (h : iterate v = .ok run) :
    v.items? = some run := by
  unfold iterate at h
  split at h
  · next items hitems => rw [hitems, Except.ok.inj h]
  · cases h

theorem length_of_evalAll {es : List Expr} {vs : List Value} {b' : Nat}
    (h : Expr.evalAll es env b = .ok (vs, b')) : vs.length = es.length := by
  induction es generalizing vs b b' with
  | nil =>
    obtain ⟨rfl, -⟩ := Prod.mk.inj (Except.ok.inj h)
    rfl
  | cons e es ih =>
    rw [Expr.evalAll] at h
    obtain ⟨v, b₁, -, h⟩ := bind_eq_ok_iff.1 h
    obtain ⟨vs', b₂, hes, h⟩ := bind_eq_ok_iff.1 h
    obtain ⟨rfl, -⟩ := Prod.mk.inj (Except.ok.inj h)
    rw [List.length_cons, List.length_cons, ih hes]

variable (hfault : fault.isOperational = false)

include hfault

/-- A step whose faults come from values does not fail with any other. -/
theorem Operational.absurd {α : Type} {x : EvalM α} {P : Prop} (h : Operational x)
    (hx : x b = .error fault) : P := by
  rw [h.eq_true hx] at hfault
  cases hfault

theorem exists_of_evalLinks {links : List Link} {lhs : Value}
    (h : Expr.evalLinks links env lhs b = .error fault) :
    ∃ q, LinkCalls env links lhs b q ∧ q.Fails fault := by
  induction links generalizing lhs b with
  | nil => cases h
  | cons l links ih =>
    obtain ⟨op, operand⟩ := l
    rcases bind_eq_error_iff.1 h with h | ⟨rhs, b', heval, h⟩
    · exact ⟨_, .head, h⟩
    rcases bind_eq_error_iff.1 h with hop | ⟨holds, b'', hop, hnext⟩
    · exact (operational_holds op lhs rhs).absurd hfault hop
    obtain ⟨hholds, rfl⟩ := StateT.liftM_eq_ok_iff.1 hop
    split at hnext
    · next hgoes =>
      obtain ⟨q, hlinks, hq⟩ := ih hnext
      exact ⟨q, .tail heval (hgoes ▸ hholds) hlinks, hq⟩
    · cases hnext

theorem exists_of_evalClauses {element : Expr} {clauses : List Clause}
    (h : Expr.evalClauses (Expr.buildElement element) clauses env b = .error fault) :
    ∃ q, ClauseCalls element clauses env b q ∧ q.Fails fault := by
  induction clauses generalizing env b with
  | nil =>
    rcases bind_eq_error_iff.1 h with h | ⟨v, b', -, h⟩
    · exact ⟨_, .element, h⟩
    · exact ((operational_spend v.weight).bind fun _ ↦ operational_pure [v]).absurd hfault h
  | cons c clauses ih =>
    rw [Expr.evalClauses_cons] at h
    rcases bind_eq_error_iff.1 h with h | ⟨v, b', heval, h⟩
    · exact ⟨_, .items, h⟩
    rcases bind_eq_error_iff.1 h with hiterate | ⟨run, b'', hiterate, hrun⟩
    · exact (operational_iterate v).absurd hfault hiterate
    obtain ⟨hrows, rfl⟩ := StateT.liftM_eq_ok_iff.1 hiterate
    rcases bind_eq_error_iff.1 hrun with hrun | ⟨rows, left, -, hflat⟩
    · obtain ⟨before, item, after, built, left, rfl, hbefore, hitem⟩ :=
        StateT.mapM_eq_error_iff.1 hrun
      have hreaches : Reaches element c clauses env b item left :=
        ⟨v, b'', before, after, built, heval, items?_of_iterate hrows, hbefore⟩
      rcases bind_eq_error_iff.1 hitem with hfilters | ⟨holds, left', hfilters, hnext⟩
      · obtain ⟨q, hrow, hq⟩ := exists_of_evalFilters hfilters
        exact ⟨q, .filter hreaches hrow, hq⟩
      split at hnext
      · next hgoes =>
        obtain ⟨q, hclauses, hq⟩ := ih hnext
        exact ⟨q, .inner hreaches (hgoes ▸ hfilters) hclauses, hq⟩
      · cases hnext
    · cases hflat

/-- A place fails with a fault by itself: it is a name that has the fault, or a range without one to
three arguments. -/
inductive Place.Raises (p : Place) (fault : EvalFault) : Prop
  | name (word : String) (expr_eq : p.expr = .name word) (find_eq : p.env.find word = .error fault)
  | range (args : List Expr) (expr_eq : p.expr = .range args) (arity : args = [] ∨ 3 < args.length)
    (fault_eq : fault = .rangeArity)

/-- A place that fails with a fault that does not come from values raises it or calls a place that
fails with it. -/
theorem Place.Fails.exists_calls {p : Place} (h : p.Fails fault) :
    p.Raises fault ∨ ∃ q, Calls p q ∧ q.Fails fault := by
  obtain ⟨e, env, b⟩ := p
  unfold Place.Fails at h
  dsimp only at h ⊢
  cases e with
  | number value => cases h
  | name word => exact .inl (.name word rfl (StateT.liftM_eq_error_iff.1 h))
  | unary op operand =>
    rcases bind_eq_error_iff.1 h with h | ⟨v, b', -, h⟩
    · exact .inr ⟨_, .unary, h⟩
    · exact (operational_unary op v).absurd hfault h
  | binary op lhs rhs =>
    rcases bind_eq_error_iff.1 h with h | ⟨l, b', hl, h⟩
    · exact .inr ⟨_, .binary .head, h⟩
    rcases bind_eq_error_iff.1 h with h | ⟨r, b'', -, h⟩
    · exact .inr ⟨_, .binary (.tail hl rfl .head), h⟩
    · exact (operational_binary op l r).absurd hfault h
  | compare first links =>
    rcases bind_eq_error_iff.1 h with h | ⟨v, b', hv, h⟩
    · exact .inr ⟨_, .compareFirst, h⟩
    rcases bind_eq_error_iff.1 h with h | ⟨holds, b'', -, h⟩
    · obtain ⟨q, hlinks, hq⟩ := exists_of_evalLinks hfault h
      exact .inr ⟨q, .compareLinks hv hlinks, hq⟩
    · cases h
  | logic op lhs rhs =>
    rcases bind_eq_error_iff.1 h with h | ⟨v, b', hv, h⟩
    · exact .inr ⟨_, .logic .head, h⟩
    split at h
    · cases h
    · next hdecides =>
      rw [Bool.not_eq_true] at hdecides
      exact .inr ⟨_, .logic (.tail hv (by rw [hdecides, Bool.not_false]) .head), h⟩
  | conditional value condition otherwise =>
    rcases bind_eq_error_iff.1 h with h | ⟨v, b', hv, h⟩
    · exact .inr ⟨_, .condition, h⟩
    · refine .inr ⟨_, .branch hv, ?_⟩
      unfold Place.Fails
      dsimp only
      split at h
      · next htruthy => rwa [if_pos htruthy]
      · next htruthy => rwa [if_neg htruthy]
  | tuple items =>
    rcases bind_eq_error_iff.1 h with h | ⟨vs, b', -, h⟩
    · obtain ⟨q, hrow, hq⟩ := exists_of_evalAll h
      exact .inr ⟨q, .tuple hrow, hq⟩
    · cases h
  | list items =>
    rcases bind_eq_error_iff.1 h with h | ⟨vs, b', -, h⟩
    · obtain ⟨q, hrow, hq⟩ := exists_of_evalAll h
      exact .inr ⟨q, .list hrow, hq⟩
    · cases h
  | comprehension element clauses =>
    rw [Expr.eval_comprehension] at h
    rcases bind_eq_error_iff.1 h with h | ⟨vs, b', -, h⟩
    · obtain ⟨q, hclauses, hq⟩ := exists_of_evalClauses hfault h
      exact .inr ⟨q, .comprehension hclauses, hq⟩
    · cases h
  | range args =>
    rcases bind_eq_error_iff.1 h with h | ⟨vs, b', hvs, h⟩
    · obtain ⟨q, hrow, hq⟩ := exists_of_evalAll h
      exact .inr ⟨q, .range hrow, hq⟩
    · have hlength := length_of_evalAll hvs
      by_cases harity : args = [] ∨ 3 < args.length
      · exact .inl (.range args rfl harity (eq_rangeArity_of_rangeOf hfault h))
      · obtain ⟨hne, hle⟩ := not_or.1 harity
        rw [← List.length_eq_zero_iff, ← hlength, List.length_eq_zero_iff] at hne
        exact (operational_rangeOf hne (by omega)).absurd hfault h

/-- A run that fails with a fault that does not come from values comes to a place that raises it. -/
theorem Place.Fails.exists_origin {p : Place} (h : p.Fails fault) :
    ∃ q, Visits p q ∧ q.Raises fault := by
  -- Called places are smaller, so that the descent to one that fails comes to an end.
  induction hsize : p.expr.size using Nat.strong_induction_on generalizing p with
  | _ n ih =>
    rcases h.exists_calls hfault with hraises | ⟨q, hcalls, hq⟩
    · exact ⟨p, .refl, hraises⟩
    · have hlt := Expr.size_lt_of_mem_children hcalls.mem_children
      obtain ⟨r, hvisits, hr⟩ := ih _ (hsize ▸ hlt) hq rfl
      exact ⟨r, .head hcalls hvisits, hr⟩

omit hfault in
/-- A run fails with a fault that comes from a name exactly if it comes to a name that has the
fault. -/
theorem Place.fails_iff (hbinding : fault.errorClass.isBinding) {p : Place} :
    p.Fails fault ↔
      ∃ q word, Visits p q ∧ q.expr = .name word ∧ q.env.find word = .error fault := by
  constructor
  · intro h
    obtain ⟨q, hvisits, hraises⟩ := h.exists_origin (fault.isOperational_of_isBinding hbinding)
    cases hraises with
    | name word hword hfind => exact ⟨q, word, hvisits, hword, hfind⟩
    | range args hargs harity hfault =>
      rw [hfault] at hbinding
      cases hbinding
  · rintro ⟨q, word, hvisits, hword, hfind⟩
    refine hvisits.fails ?_
    unfold Place.Fails
    rw [hword]
    exact StateT.liftM_eq_error_iff.2 hfind

end Origin

end Waypoints
