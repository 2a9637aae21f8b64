import Waypoints.Proofs.Agreement
import Waypoints.Proofs.Evaluation.Footprint
/-!
# Semantics of the expression language

A `Semantics` gives the operations of the expression language a meaning over values of any type, in
steps of any kind, and `Expr.interpret` evaluates an expression by it. A semantics is tied to the
evaluation by a relation of its values to the values of the language, lifted to a relation of its
steps to the steps of the evaluation (`Lifting`). If each operation respects the two relations
(`Semantics.Simulates`), then every expression does (`Semantics.Simulates.interpret`).
-/

set_option autoImplicit false
set_option relaxedAutoImplicit false

namespace Waypoints

/-! ### Semantics -/

/-- A meaning of the operations of the expression language: values of the type `V`, and steps of the
kind `M` that may fail, pay and keep a record. -/
structure Semantics (M : Type → Type) (V : Type) where
  number : Float → M V
  /-- What a name of the board stands for. -/
  name : String → M V
  unary : UnaryOp → V → M V
  binary : BinaryOp → V → V → M V
  holds : CompareOp → V → V → M Bool
  range : List V → M V
  /-- The items of what a clause runs over. -/
  items : V → M (List V)
  /-- Pays for an element of a comprehension. -/
  pay : V → M Unit
  isTruthy : V → Bool
  bool : Bool → V
  tuple : List V → V
  list : List V → V

/-- Whether a connective stops at a left operand of this truth value. -/
def LogicOp.stopsAt (op : LogicOp) (truthy : Bool) : Bool :=
  match op with
  | .and => !truthy
  | .or => truthy

theorem LogicOp.decides_eq_stopsAt (op : LogicOp) (v : Value) :
    op.decides v = op.stopsAt v.isTruthy := by
  cases op <;> rfl

namespace Expr

variable {M : Type → Type} [Monad M] {V : Type}

mutual

/-- Evaluates an expression by a semantics, with the variables of the clauses around it. -/
def interpret (S : Semantics M V) : Expr → List (String × V) → M V
  | number value, _ => S.number value
  | name word, locals =>
    match locals.lookup word with
    | some v => pure v
    | none => S.name word
  | unary op operand, locals => do
    S.unary op (← interpret S operand locals)
  | binary op lhs rhs, locals => do
    let a ← interpret S lhs locals
    let b ← interpret S rhs locals
    S.binary op a b
  | compare first links, locals => do
    let v ← interpret S first locals
    return S.bool (← interpretLinks S links locals v)
  | logic op lhs rhs, locals => do
    let v ← interpret S lhs locals
    if op.stopsAt (S.isTruthy v) then return v else interpret S rhs locals
  | conditional value condition otherwise, locals => do
    let v ← interpret S condition locals
    if S.isTruthy v then interpret S value locals else interpret S otherwise locals
  | tuple items, locals => do
    return S.tuple (← interpretAll S items locals)
  | list items, locals => do
    return S.list (← interpretAll S items locals)
  | comprehension element clauses, locals => do
    let build (inner : List (String × V)) : M (List V) := do
      let v ← interpret S element inner
      S.pay v
      return [v]
    return S.list (← interpretClauses S build clauses locals)
  | range args, locals => do
    S.range (← interpretAll S args locals)

/-- Evaluates expressions from left to right. -/
def interpretAll (S : Semantics M V) : List Expr → List (String × V) → M (List V)
  | [], _ => return []
  | e :: es, locals => do
    let v ← interpret S e locals
    return v :: (← interpretAll S es locals)

/-- Evaluates a chain of comparisons with the operand before it, as far as they hold. -/
def interpretLinks (S : Semantics M V) : List Link → List (String × V) → V → M Bool
  | [], _, _ => return true
  | .mk op operand :: links, locals, lhs => do
    let rhs ← interpret S operand locals
    if ← S.holds op lhs rhs then interpretLinks S links locals rhs else return false

/-- Evaluates conditions as far as they hold, and says whether all of them do. -/
def interpretFilters (S : Semantics M V) : List Expr → List (String × V) → M Bool
  | [], _ => return true
  | e :: es, locals => do
    let v ← interpret S e locals
    if S.isTruthy v then interpretFilters S es locals else return false

/-- Runs through all the bindings that clauses give, and collects what `build` gives for each. -/
def interpretClauses (S : Semantics M V) (build : List (String × V) → M (List V)) :
    List Clause → List (String × V) → M (List V)
  | [], locals => build locals
  | .mk loopVar items filters :: clauses, locals => do
    let run ← S.items (← interpret S items locals)
    let built ← run.mapM' fun item ↦ do
      let inner := (loopVar, item) :: locals
      if ← interpretFilters S filters inner then interpretClauses S build clauses inner
      else return []
    return built.flatten

end

end Expr

/-! ### Steps -/

/-- A way to compare the steps of a semantics with those of the evaluation, for any comparison of
their results. -/
structure Lifting (M : Type → Type) [Monad M] where
  Rel {α β : Type} : (α → β → Prop) → M α → EvalM β → Prop
  pure {α β : Type} {ok : α → β → Prop} {a : α} {b : β} : ok a b → Rel ok (pure a) (pure b)
  bind {α β γ δ : Type} {ok : α → β → Prop} {ok' : γ → δ → Prop} {x : M α} {y : EvalM β}
    {f : α → M γ} {g : β → EvalM δ} : Rel ok x y → (∀ a b, ok a b → Rel ok' (f a) (g b)) →
    Rel ok' (x >>= f) (y >>= g)

section Rules

variable {M : Type → Type} [Monad M] {L : Lifting M} {α β γ δ : Type}

theorem Lifting.mapM {r : α → β → Prop} {ok : γ → δ → Prop} {f : α → M γ} {g : β → EvalM δ}
    {as : List α} {bs : List β} (h : List.Forall₂ r as bs)
    (hf : ∀ a b, r a b → L.Rel ok (f a) (g b)) :
    L.Rel (List.Forall₂ ok) (as.mapM' f) (bs.mapM g) := by
  induction h with
  | nil => exact L.pure .nil
  | cons hab _ ih =>
    rw [List.mapM_cons, List.mapM'_cons]
    refine L.bind (hf _ _ hab) fun c d hcd ↦ ?_
    exact L.bind ih fun cs ds hcsds ↦ L.pure (.cons hcd hcsds)

end Rules

/-! ### Simulations -/

/-- Variables of the same names, with related values. -/
def RelatedLocals {V : Type} (r : V → Value → Prop) : List (String × V) → List (String × Value) →
    Prop :=
  List.Forall₂ fun p q ↦ p.1 = q.1 ∧ r p.2 q.2

theorem RelatedLocals.lookup {V : Type} {r : V → Value → Prop} {locals : List (String × V)}
    {locals' : List (String × Value)} (h : RelatedLocals r locals locals') (word : String) :
    Option.Rel r (locals.lookup word) (locals'.lookup word) := by
  induction h with
  | nil => exact .none
  | @cons p q _ _ hpq _ ih =>
    obtain ⟨loopVar, v⟩ := p
    obtain ⟨loopVar', v'⟩ := q
    obtain ⟨rfl, hv⟩ := hpq
    rw [List.lookup_cons, List.lookup_cons]
    cases word == loopVar with
    | true => exact .some hv
    | false => exact ih

/-- The operations of a semantics respect a relation of its values to those of the language. The
literals, the names and the operators have to do so only where an expression may have them. -/
structure Semantics.Simulates {M : Type → Type} [Monad M] {V : Type} (S : Semantics M V)
    (b : Bindings) (L : Lifting M) (r : V → Value → Prop) (sites : Expr → Prop) : Prop where
  number {value : Float} :
    sites (.number value) → L.Rel r (S.number value) (pure (.number value))
  name {word : String} : sites (.name word) → L.Rel r (S.name word) (liftM (b.find word))
  unary (op : UnaryOp) {v : V} {w : Value} : r v w → L.Rel r (S.unary op v) (liftM (op.apply w))
  binary {op : BinaryOp} {lhs rhs : Expr} {v v' : V} {w w' : Value} :
    sites (.binary op lhs rhs) → r v w → r v' w' → L.Rel r (S.binary op v v') (op.apply w w')
  holds (op : CompareOp) {v v' : V} {w w' : Value} :
    r v w → r v' w' → L.Rel Eq (S.holds op v v') (liftM (op.holds w w'))
  range {vs : List V} {ws : List Value} :
    List.Forall₂ r vs ws → L.Rel r (S.range vs) (rangeOf ws)
  items {v : V} {w : Value} :
    r v w → L.Rel (List.Forall₂ r) (S.items v) (liftM (iterate w))
  pay {v : V} {w : Value} : r v w → L.Rel (fun _ _ ↦ True) (S.pay v) (spend w.weight)
  isTruthy {v : V} {w : Value} : r v w → S.isTruthy v = w.isTruthy
  bool (flag : Bool) : r (S.bool flag) (.bool flag)
  tuple {vs : List V} {ws : List Value} : List.Forall₂ r vs ws → r (S.tuple vs) (.tuple ws)
  list {vs : List V} {ws : List Value} : List.Forall₂ r vs ws → r (S.list vs) (.list ws)

namespace Semantics.Simulates

variable {M : Type → Type} [Monad M] {V : Type} {S : Semantics M V} {b : Bindings} {L : Lifting M}
  {r : V → Value → Prop} {sites : Expr → Prop} {locals : List (String × V)} {env : Env}

/-- An expression is evaluated alike by the semantics, whatever its variables. -/
def On (S : Semantics M V) (b : Bindings) (L : Lifting M) (r : V → Value → Prop) (e : Expr) :
    Prop :=
  ∀ {locals : List (String × V)} {env : Env}, env.board = b → RelatedLocals r locals env.locals →
    L.Rel r (e.interpret S locals) (e.eval env)

/-! ### Rows of expressions -/

section Rows

theorem interpretAll {es : List Expr} (h : ∀ e ∈ es, On S b L r e) (hb : env.board = b)
    (hlocals : RelatedLocals r locals env.locals) :
    L.Rel (List.Forall₂ r) (Expr.interpretAll S es locals) (Expr.evalAll es env) := by
  induction es with
  | nil => exact L.pure .nil
  | cons e es ih =>
    obtain ⟨he, hes⟩ := List.forall_mem_cons.1 h
    rw [Expr.interpretAll, Expr.evalAll]
    refine L.bind (he hb hlocals) fun v w hv ↦ ?_
    exact L.bind (ih hes) fun vs ws hvs ↦ L.pure (.cons hv hvs)

theorem interpretLinks (hS : S.Simulates b L r sites) {links : List Link}
    (h : ∀ l ∈ links, On S b L r l.operand) (hb : env.board = b)
    (hlocals : RelatedLocals r locals env.locals) {v : V} {w : Value} (hv : r v w) :
    L.Rel Eq (Expr.interpretLinks S links locals v) (Expr.evalLinks links env w) := by
  induction links generalizing v w with
  | nil => exact L.pure rfl
  | cons l links ih =>
    obtain ⟨op, operand⟩ := l
    obtain ⟨hl, hlinks⟩ := List.forall_mem_cons.1 h
    rw [Expr.interpretLinks, Expr.evalLinks]
    refine L.bind (hl hb hlocals) fun v' w' hv' ↦ ?_
    refine L.bind (hS.holds op hv hv') ?_
    rintro holds _ rfl
    cases holds with
    | false => exact L.pure rfl
    | true => exact ih hlinks hv'

theorem interpretFilters (hS : S.Simulates b L r sites) {filters : List Expr}
    (h : ∀ e ∈ filters, On S b L r e) (hb : env.board = b)
    (hlocals : RelatedLocals r locals env.locals) :
    L.Rel Eq (Expr.interpretFilters S filters locals) (Expr.evalFilters filters env) := by
  induction filters with
  | nil => exact L.pure rfl
  | cons e es ih =>
    obtain ⟨he, hes⟩ := List.forall_mem_cons.1 h
    rw [Expr.interpretFilters, Expr.evalFilters]
    refine L.bind (he hb hlocals) fun v w hv ↦ ?_
    rw [hS.isTruthy hv]
    split
    · exact ih hes
    · exact L.pure rfl

/-- Clauses collect related rows if what is built inside them is related. -/
theorem interpretClauses (hS : S.Simulates b L r sites) {build : List (String × V) → M (List V)}
    {build' : Env → EvalM (List Value)}
    (hbuild : ∀ {locals : List (String × V)} {env : Env}, env.board = b →
      RelatedLocals r locals env.locals → L.Rel (List.Forall₂ r) (build locals) (build' env))
    {clauses : List Clause}
    (h : ∀ c ∈ clauses, On S b L r c.items ∧ ∀ e ∈ c.filters, On S b L r e) (hb : env.board = b)
    (hlocals : RelatedLocals r locals env.locals) :
    L.Rel (List.Forall₂ r) (Expr.interpretClauses S build clauses locals)
      (Expr.evalClauses build' clauses env) := by
  induction clauses generalizing locals env with
  | nil => exact hbuild hb hlocals
  | cons c clauses ih =>
    obtain ⟨loopVar, items, filters⟩ := c
    obtain ⟨⟨hitems, hfilters⟩, hclauses⟩ := List.forall_mem_cons.1 h
    rw [Expr.interpretClauses, Expr.evalClauses_cons]
    refine L.bind (hitems hb hlocals) fun v w hv ↦ ?_
    refine L.bind (hS.items hv) fun vs ws hvs ↦ ?_
    refine L.bind (Lifting.mapM hvs fun v w hv ↦ ?_) fun rows rows' hrows ↦
      L.pure (List.rel_flatten hrows)
    have hinner : RelatedLocals r ((loopVar, v) :: locals) (env.bind loopVar w).locals :=
      .cons ⟨rfl, hv⟩ hlocals
    refine L.bind (hS.interpretFilters hfilters hb hinner) ?_
    rintro holds _ rfl
    cases holds with
    | false => exact L.pure .nil
    | true => exact ih hclauses hb hinner

end Rows

/-! ### Expressions -/

/-- An expression all of whose nodes are sites is evaluated alike by the semantics. -/
theorem interpret (hS : S.Simulates b L r sites) (e : Expr)
    (hsites : ∀ node, e.Contains node → sites node) : On S b L r e := by
  have hchild {e c : Expr} (hc : c ∈ e.children) (h : ∀ node, e.Contains node → sites node) :
      ∀ node, c.Contains node → sites node :=
    fun node hnode ↦ h node (.head hc hnode)
  -- `On` speaks of all variables, so that an element may be evaluated under those of its clauses.
  induction e with
  | number value =>
    intro locals env _ _
    rw [Expr.interpret, Expr.eval]
    exact hS.number (hsites _ .refl)
  | name word =>
    intro locals env hb hlocals
    rw [Expr.interpret, Expr.eval, Env.find, hb]
    have hlookup := hlocals.lookup word
    revert hlookup
    generalize locals.lookup word = x
    generalize env.locals.lookup word = y
    rintro (hv | _)
    · exact L.pure hv
    · exact hS.name (hsites _ .refl)
  | unary op operand ih =>
    intro locals env hb hlocals
    rw [Expr.interpret, Expr.eval]
    exact L.bind (ih (hchild (by simp [Expr.children, Expr.parts]) hsites) hb hlocals)
      fun v w hv ↦ hS.unary op hv
  | binary op lhs rhs ihl ihr =>
    intro locals env hb hlocals
    rw [Expr.interpret, Expr.eval]
    refine L.bind (ihl (hchild (by simp [Expr.children, Expr.parts]) hsites) hb hlocals)
      fun v w hv ↦ ?_
    exact L.bind (ihr (hchild (by simp [Expr.children, Expr.parts]) hsites) hb hlocals)
      fun v' w' hv' ↦ hS.binary (hsites _ .refl) hv hv'
  | compare first links ihf ihl =>
    intro locals env hb hlocals
    rw [Expr.interpret, Expr.eval]
    refine L.bind (ihf (hchild (by simp [Expr.children, Expr.parts]) hsites) hb hlocals)
      fun v w hv ↦ ?_
    have hlinks : ∀ l ∈ links, On S b L r l.operand := fun l hl ↦
      ihl l hl (hchild (List.mem_append_left _ (.tail _ (List.mem_map_of_mem hl))) hsites)
    refine L.bind (hS.interpretLinks hlinks hb hlocals hv) ?_
    rintro flag _ rfl
    exact L.pure (hS.bool flag)
  | logic op lhs rhs ihl ihr =>
    intro locals env hb hlocals
    rw [Expr.interpret, Expr.eval]
    refine L.bind (ihl (hchild (by simp [Expr.children, Expr.parts]) hsites) hb hlocals)
      fun v w hv ↦ ?_
    rw [LogicOp.decides_eq_stopsAt, hS.isTruthy hv]
    split
    · exact L.pure hv
    · exact ihr (hchild (by simp [Expr.children, Expr.parts]) hsites) hb hlocals
  | conditional value condition otherwise ihv ihc iho =>
    intro locals env hb hlocals
    rw [Expr.interpret, Expr.eval]
    refine L.bind (ihc (hchild (by simp [Expr.children, Expr.parts]) hsites) hb hlocals)
      fun v w hv ↦ ?_
    rw [hS.isTruthy hv]
    split
    · exact ihv (hchild (by simp [Expr.children, Expr.parts]) hsites) hb hlocals
    · exact iho (hchild (by simp [Expr.children, Expr.parts]) hsites) hb hlocals
  | tuple items ih =>
    intro locals env hb hlocals
    rw [Expr.interpret, Expr.eval]
    have hitems : ∀ e ∈ items, On S b L r e := fun e he ↦
      ih e he (hchild (e := .tuple items) (Expr.mem_children_of_mem_parts he) hsites)
    exact L.bind (interpretAll hitems hb hlocals) fun vs ws hvs ↦ L.pure (hS.tuple hvs)
  | list items ih =>
    intro locals env hb hlocals
    rw [Expr.interpret, Expr.eval]
    have hitems : ∀ e ∈ items, On S b L r e := fun e he ↦
      ih e he (hchild (e := .list items) (Expr.mem_children_of_mem_parts he) hsites)
    exact L.bind (interpretAll hitems hb hlocals) fun vs ws hvs ↦ L.pure (hS.list hvs)
  | comprehension element clauses ihe ihc =>
    intro locals env hb hlocals
    rw [Expr.interpret, Expr.eval_comprehension]
    have hclause {c : Clause} (hc : c ∈ clauses) {e : Expr} (he : e ∈ c.items :: c.filters) :
        ∀ node, e.Contains node → sites node :=
      hchild (List.mem_append_right _ (List.mem_flatMap.2 ⟨c, hc, he⟩)) hsites
    have hclauses : ∀ c ∈ clauses, On S b L r c.items ∧ ∀ e ∈ c.filters, On S b L r e :=
      fun c hc ↦ ⟨(ihc c hc).1 (hclause hc (.head _)),
        fun e he ↦ (ihc c hc).2 e he (hclause hc (.tail _ he))⟩
    refine L.bind (hS.interpretClauses (fun hb hlocals ↦ ?_) hclauses hb hlocals)
      fun vs ws hvs ↦ L.pure (hS.list hvs)
    refine L.bind (ihe (hchild (.head _) hsites) hb hlocals) fun v w hv ↦ ?_
    exact L.bind (hS.pay hv) fun _ _ _ ↦ L.pure (.cons hv .nil)
  | range args ih =>
    intro locals env hb hlocals
    rw [Expr.interpret, Expr.eval]
    have hargs : ∀ e ∈ args, On S b L r e := fun e he ↦
      ih e he (hchild (e := .range args) (Expr.mem_children_of_mem_parts he) hsites)
    exact L.bind (interpretAll hargs hb hlocals) fun vs ws hvs ↦ hS.range hvs

end Semantics.Simulates

end Waypoints
