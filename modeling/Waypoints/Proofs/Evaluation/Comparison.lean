import Waypoints.Expr.Formula
import Waypoints.Proofs.Evaluation.Places
import Waypoints.Proofs.Evaluation.Related
/-!
# Two evaluations compared

A `Comparison` puts the evaluation of an expression for some bindings next to its evaluation for
others. If the operations on numbers respect a relation of numbers (`Congruent`) and the places of
the left run are good enough for the names, the literals and the arithmetic there (`Lawful`), then
both evaluations go the same way and end alike (`Lawful.agree_eval`), up to the faults of the left
one that are excused. The rules follow the lines of `Expr.eval`; the one induction is over trees.
-/

set_option autoImplicit false
set_option relaxedAutoImplicit false

namespace Waypoints

/-! ### Relations of numbers -/

/-- The progressions that related numbers describe. -/
def Progression.Related (r : Float → Float → Prop) (p q : Progression) : Prop :=
  r p.start q.start ∧ r p.stop q.stop ∧ r p.step q.step

/-- The operations on numbers that cannot fail respect a relation. -/
structure Congruent (r : Float → Float → Prop) : Prop where
  zero : r 0 0
  one : r 1 1
  neg {a a' : Float} : r a a' → r (-a) (-a')
  beq {a a' b b' : Float} : r a a' → r b b' → (a == b) = (a' == b')
  lt {a a' b b' : Float} : r a a' → r b b' → (a < b ↔ a' < b')
  le {a a' b b' : Float} : r a a' → r b b' → (a ≤ b ↔ a' ≤ b')
  isWhole {a a' : Float} : r a a' → Number.isWhole a = Number.isWhole a'
  /-- The span of a progression that moves. -/
  span {p q : Progression} : p.Related r q → (p.step == 0) = false → p.span = q.span
  /-- The items of a progression of whole numbers that moves. -/
  item {p q : Progression} (i : Nat) : p.Related r q → Number.isWhole p.start →
    Number.isWhole p.step → (p.step == 0) = false →
    r (p.start + p.step * Number.ofNat i) (q.start + q.step * Number.ofNat i)

theorem congruent_eq : Congruent (· = ·) where
  zero := rfl
  one := rfl
  neg := congrArg _
  beq := by
    rintro a _ b _ rfl rfl
    rfl
  lt := by
    rintro a _ b _ rfl rfl
    rfl
  le := by
    rintro a _ b _ rfl rfl
    rfl
  isWhole := congrArg _
  span := by
    rintro ⟨start, stop, step⟩ ⟨_, _, _⟩ ⟨rfl, rfl, rfl⟩ _
    rfl
  item := by
    rintro ⟨start, stop, step⟩ ⟨_, _, _⟩ i ⟨rfl, rfl, rfl⟩ _ _ _
    rfl

/-- The same permission, with related numbers of the board. -/
structure Bindings.Related (r : Float → Float → Prop) (b b' : Bindings) : Prop where
  x : r b.x b'.x
  y : r b.y b'.y
  w : r b.w b'.w
  h : r b.h b'.h
  anyOk : b.anyOk = b'.anyOk

/-- Related bindings agree on a name. Assumes: the wildcard is related to itself if it is what the
name stands for. -/
theorem Bindings.Related.agree_find {r : Float → Float → Prop} {b b' : Bindings}
    (hb : b.Related r b') {word : String} (excused : EvalFault → Prop)
    (hwildcard : word = "any" → b.anyOk → r wildcard wildcard) :
    Except.Agrees excused (EvalFault.Related r) (Value.Related r) (b.find word) (b'.find word) := by
  unfold Bindings.find
  rw [← hb.anyOk]
  split
  · exact .number hb.x
  split
  · exact .number hb.y
  split
  · exact .number hb.w
  split
  · exact .number hb.h
  split
  · next hany =>
    split
    · next hok => exact .number (hwildcard hany hok)
    · exact .inr (.refl _)
  · exact .inr (.refl _)

/-! ### Comparisons -/

/-- Two evaluations: the bindings of both, the relation of their numbers, the faults of the left one
that are excused, how much more budget the right one has, and the places of the left run at which
the operators are known to respect the relation. -/
structure Comparison where
  left : Bindings
  right : Bindings
  numbers : Float → Float → Prop
  excused : EvalFault → Prop
  slack : Nat
  sites : Place → Prop

namespace Comparison

variable (C : Comparison) {α β γ δ : Type}

/-- Outcomes of operations that agree. -/
abbrev Outcomes (ok : α → β → Prop) : Except EvalFault α → Except EvalFault β → Prop :=
  Except.Agrees C.excused (EvalFault.Related C.numbers) ok

/-- Steps that agree from a budget of the left one, and keep the difference of the budgets. -/
def Steps (ok : α → β → Prop) (x : EvalM α) (y : EvalM β) (b : Nat) : Prop :=
  C.Outcomes (fun p q ↦ ok p.1 q.1 ∧ q.2 = p.2 + C.slack) (x b) (y (b + C.slack))

/-- Environments with the same variables and related values. -/
structure Envs (env env' : Env) : Prop where
  left : env.board = C.left
  right : env'.board = C.right
  locals : List.Forall₂ (fun p q ↦ p.1 = q.1 ∧ Value.Related C.numbers p.2 q.2)
    env.locals env'.locals

/-- What a comparison takes from its numbers, its bindings and its sites. -/
structure Lawful : Prop where
  congruent : Congruent C.numbers
  budget : C.slack = 0 ∨ C.excused .tooManyValues
  calls {p q : Place} : C.sites p → Calls p q → C.sites q
  number {value : Float} {env : Env} {b : Nat} :
    C.sites ⟨.number value, env, b⟩ → C.numbers value value
  name {word : String} {env : Env} {b : Nat} : C.sites ⟨.name word, env, b⟩ →
    C.Outcomes (Value.Related C.numbers) (C.left.find word) (C.right.find word)
  arithmetic {op : BinaryOp} {lhs rhs : Expr} {env : Env} {b b' b'' : Nat} {v w : Value}
    {x x' y y' : Float} : C.sites ⟨.binary op lhs rhs, env, b⟩ →
    lhs.eval env b = .ok (v, b') → rhs.eval env b' = .ok (w, b'') →
    v.toNumber? = some x → w.toNumber? = some y → C.numbers x x' → C.numbers y y' →
    C.Outcomes C.numbers (op.arithmetic x y) (op.arithmetic x' y')

variable {C}

/-! ### Steps -/

section Steps

variable {ok : α → β → Prop} {ok' : γ → δ → Prop} {b : Nat}

theorem Steps.bind {x : EvalM α} {y : EvalM β} {f : α → EvalM γ} {g : β → EvalM δ}
    (h : C.Steps ok x y b)
    (hf : ∀ a a' n, x b = .ok (a, n) → ok a a' → C.Steps ok' (f a) (g a') n) :
    C.Steps ok' (x >>= f) (y >>= g) b := by
  refine Except.Agrees.bind h fun p q hp _ hpq ↦ ?_
  obtain ⟨a, n⟩ := p
  obtain ⟨a', n'⟩ := q
  obtain ⟨hok, rfl⟩ := hpq
  exact hf a a' n hp hok

theorem steps_pure {a : α} {a' : β} (h : ok a a') (b : Nat) :
    C.Steps ok (pure a) (pure a') b :=
  ⟨h, rfl⟩

theorem steps_liftM {x : Except EvalFault α} {y : Except EvalFault β} (h : C.Outcomes ok x y)
    (b : Nat) : C.Steps ok (liftM x : EvalM α) (liftM y : EvalM β) b := by
  rcases x with e | a <;> rcases y with e' | a'
  · exact h
  · exact h
  · exact h
  · exact ⟨h, rfl⟩

theorem steps_throw (fault : EvalFault) (b : Nat) :
    C.Steps ok (throw fault : EvalM α) (throw fault : EvalM β) b :=
  .inr (.refl fault)

/-- What one budget pays for the other pays for, unless the smaller one is exhausted. -/
theorem Lawful.steps_spend (hC : C.Lawful) (n b : Nat) :
    C.Steps (fun _ _ ↦ True) (spend n) (spend n) b := by
  have hspend (b : Nat) : spend n b = if n ≤ b then .ok ((), b - n) else .error .tooManyValues := by
    unfold spend
    by_cases h : n ≤ b
    · rw [if_pos h]
      change (if n ≤ b then _ else _ : EvalM Unit) b = _
      rw [if_pos h]
      rfl
    · rw [if_neg h]
      change (if n ≤ b then _ else _ : EvalM Unit) b = _
      rw [if_neg h]
      rfl
  unfold Steps
  rw [hspend, hspend]
  by_cases h : n ≤ b
  · rw [if_pos h, if_pos (by omega)]
    refine ⟨trivial, ?_⟩
    change b + C.slack - n = b - n + C.slack
    omega
  · rw [if_neg h]
    split
    · rcases hC.budget with hslack | hexcused
      · omega
      · exact hexcused
    · exact .inr (.refl _)

end Steps

end Comparison

/-! ### Operations on values -/

section Equality

variable {r : Float → Float → Prop}

theorem Congruent.number_equals (hr : Congruent r) {a a' : Float} {w w' : Value} (ha : r a a')
    (hw : Value.Related r w w') : w.toNumber?.any (a == ·) = w'.toNumber?.any (a' == ·) := by
  have hnumber := hw.toNumber? hr.zero hr.one
  revert hnumber
  generalize w.toNumber? = x
  generalize w'.toNumber? = x'
  rintro (hx | _)
  · exact hr.beq ha hx
  · rfl

mutual

/-- Equality does not tell related values apart. -/
theorem Value.Related.equals_eq (hr : Congruent r) {v v' w w' : Value} :
    Value.Related r v v' → Value.Related r w w' → v.equals w = v'.equals w'
  | .number ha, hw => by
    rw [Value.equals, Value.equals]
    exact hr.number_equals ha hw
  | .bool flag, hw => by
    rw [Value.equals, Value.equals]
    cases flag
    · exact hr.number_equals hr.zero hw
    · exact hr.number_equals hr.one hw
  | .tuple has, .tuple hbs => has.equalsAll_eq hr hbs
  | .list has, .list hbs => has.equalsAll_eq hr hbs
  | .tuple _, .number _ => rfl
  | .tuple _, .bool _ => rfl
  | .tuple _, .list _ => rfl
  | .list _, .number _ => rfl
  | .list _, .bool _ => rfl
  | .list _, .tuple _ => rfl

theorem Value.RelatedAll.equalsAll_eq (hr : Congruent r) {as as' bs bs' : List Value} :
    Value.RelatedAll r as as' → Value.RelatedAll r bs bs' →
    Value.equalsAll as bs = Value.equalsAll as' bs'
  | .nil, .nil => rfl
  | .nil, .cons _ _ => rfl
  | .cons _ _, .nil => rfl
  | .cons ha has, .cons hb hbs =>
    congrArg₂ (· && ·) (ha.equals_eq hr hb) (has.equalsAll_eq hr hbs)

end

end Equality

namespace Comparison

variable {C : Comparison}

section Operations

variable {v v' w w' : Value}

theorem outcomes_numberOperand (hC : C.Lawful) (op : UnaryOp) (h : Value.Related C.numbers v v') :
    C.Outcomes C.numbers (numberOperand op v) (numberOperand op v') := by
  unfold numberOperand
  rw [h.kind_eq]
  have hnumber := h.toNumber? hC.congruent.zero hC.congruent.one
  revert hnumber
  generalize v.toNumber? = x
  generalize v'.toNumber? = x'
  rintro (hx | _)
  · exact hx
  · exact .inr (.refl _)

theorem Lawful.isTruthy_eq (hC : C.Lawful) (h : Value.Related C.numbers v v') :
    v.isTruthy = v'.isTruthy :=
  h.isTruthy_eq fun _ _ hab ↦ hC.congruent.beq hab hC.congruent.zero

theorem Lawful.outcomes_unary (hC : C.Lawful) (op : UnaryOp) (h : Value.Related C.numbers v v') :
    C.Outcomes (Value.Related C.numbers) (op.apply v) (op.apply v') := by
  cases op with
  | not =>
    rw [UnaryOp.apply, UnaryOp.apply, hC.isTruthy_eq h]
    exact .bool _
  | plus => exact (outcomes_numberOperand hC .plus h).bind fun x x' _ _ hx ↦ .number hx
  | minus =>
    exact (outcomes_numberOperand hC .minus h).bind fun x x' _ _ hx ↦
      .number (hC.congruent.neg hx)

/-- An operator on numbers, given what it does to the numbers of the operands. -/
theorem Lawful.outcomes_onNumbers (hC : C.Lawful) {op : BinaryOp}
    (hv : Value.Related C.numbers v v') (hw : Value.Related C.numbers w w')
    (hop : ∀ x x' y y', v.toNumber? = some x → w.toNumber? = some y → C.numbers x x' →
      C.numbers y y' → C.Outcomes C.numbers (op.arithmetic x y) (op.arithmetic x' y')) :
    C.Outcomes (Value.Related C.numbers) (op.onNumbers v w) (op.onNumbers v' w') := by
  unfold BinaryOp.onNumbers
  rw [hv.kind_eq, hw.kind_eq]
  have hx := hv.toNumber? hC.congruent.zero hC.congruent.one
  have hy := hw.toNumber? hC.congruent.zero hC.congruent.one
  revert hop hx hy
  generalize v.toNumber? = x
  generalize v'.toNumber? = x'
  generalize w.toNumber? = y
  generalize w'.toNumber? = y'
  rintro hop (hx | _) (hy | _)
  · exact (hop _ _ _ _ rfl rfl hx hy).bind fun _ _ _ _ hxy ↦ .number hxy
  · exact .inr (.refl _)
  · exact .inr (.refl _)
  · exact .inr (.refl _)

theorem Lawful.steps_apply (hC : C.Lawful) {op : BinaryOp}
    (hv : Value.Related C.numbers v v') (hw : Value.Related C.numbers w w')
    (hop : ∀ x x' y y', v.toNumber? = some x → w.toNumber? = some y → C.numbers x x' →
      C.numbers y y' → C.Outcomes C.numbers (op.arithmetic x y) (op.arithmetic x' y')) (b : Nat) :
    C.Steps (Value.Related C.numbers) (op.apply v w) (op.apply v' w') b := by
  have hnumbers := steps_liftM (hC.outcomes_onNumbers hv hw hop) b
  cases op with
  | add =>
    cases hv with
    | list hv =>
      cases hw with
      | list hw =>
        rw [BinaryOp.apply, BinaryOp.apply, hw.totalWeight_eq]
        exact (hC.steps_spend _ b).bind fun _ _ n _ _ ↦ steps_pure (.list (hv.append hw)) n
      | _ => exact hnumbers
    | tuple hv =>
      cases hw with
      | tuple hw =>
        rw [BinaryOp.apply, BinaryOp.apply, hw.totalWeight_eq]
        exact (hC.steps_spend _ b).bind fun _ _ n _ _ ↦ steps_pure (.tuple (hv.append hw)) n
      | _ => exact hnumbers
    | _ => exact hnumbers
  | _ => exact hnumbers

theorem Lawful.outcomes_ordered (hC : C.Lawful) {before : Float → Float → Bool}
    (hbefore : ∀ x x' y y', C.numbers x x' → C.numbers y y' → before x y = before x' y')
    (hv : Value.Related C.numbers v v') (hw : Value.Related C.numbers w w') :
    C.Outcomes Eq (ordered before v w) (ordered before v' w') := by
  unfold ordered
  rw [hv.kind_eq, hw.kind_eq]
  have hx := hv.toNumber? hC.congruent.zero hC.congruent.one
  have hy := hw.toNumber? hC.congruent.zero hC.congruent.one
  revert hx hy
  generalize v.toNumber? = x
  generalize v'.toNumber? = x'
  generalize w.toNumber? = y
  generalize w'.toNumber? = y'
  rintro (hx | _) (hy | _)
  · exact hbefore _ _ _ _ hx hy
  · exact .inr (.refl _)
  · exact .inr (.refl _)
  · exact .inr (.refl _)

theorem Lawful.outcomes_holds (hC : C.Lawful) (op : CompareOp)
    (hv : Value.Related C.numbers v v') (hw : Value.Related C.numbers w w') :
    C.Outcomes Eq (op.holds v w) (op.holds v' w') := by
  have hlt {x x' y y' : Float} (hx : C.numbers x x') (hy : C.numbers y y') :
      decide (x < y) = decide (x' < y') := decide_eq_decide.2 (hC.congruent.lt hx hy)
  have hle {x x' y y' : Float} (hx : C.numbers x x') (hy : C.numbers y y') :
      decide (x ≤ y) = decide (x' ≤ y') := decide_eq_decide.2 (hC.congruent.le hx hy)
  cases op with
  | eq => exact hv.equals_eq hC.congruent hw
  | ne => exact congrArg not (hv.equals_eq hC.congruent hw)
  | lt => exact hC.outcomes_ordered (fun _ _ _ _ hx hy ↦ hlt hx hy) hv hw
  | le => exact hC.outcomes_ordered (fun _ _ _ _ hx hy ↦ hle hx hy) hv hw
  | gt => exact hC.outcomes_ordered (fun _ _ _ _ hx hy ↦ hlt hy hx) hv hw
  | ge => exact hC.outcomes_ordered (fun _ _ _ _ hx hy ↦ hle hy hx) hv hw

theorem Lawful.decides_eq (hC : C.Lawful) (op : LogicOp) (h : Value.Related C.numbers v v') :
    op.decides v = op.decides v' := by
  cases op with
  | and => exact congrArg not (hC.isTruthy_eq h)
  | or => exact hC.isTruthy_eq h

/-! ### Ranges -/

theorem Lawful.outcomes_rangeArgument (hC : C.Lawful) (h : Value.Related C.numbers v v') :
    C.Outcomes (fun x x' ↦ C.numbers x x' ∧ Number.isWhole x) (rangeArgument v)
      (rangeArgument v') := by
  unfold rangeArgument
  have hfault : EvalFault.Related C.numbers (.rangeNeedsIntegers v) (.rangeNeedsIntegers v') :=
    .argument h
  have hnumber := h.toNumber? hC.congruent.zero hC.congruent.one
  revert hnumber
  generalize v.toNumber? = x
  generalize v'.toNumber? = x'
  rintro (hx | _)
  · dsimp only
    rw [← hC.congruent.isWhole hx]
    split
    · next hwhole => exact ⟨hx, hwhole⟩
    · exact .inr hfault
  · exact .inr hfault

/-- Related progressions of whole numbers have related items. -/
theorem Lawful.steps_build (hC : C.Lawful) {p q : Progression} (h : p.Related C.numbers q)
    (hstart : Number.isWhole p.start) (hstep : Number.isWhole p.step) (b : Nat) :
    C.Steps (Value.Related C.numbers) p.build q.build b := by
  unfold Progression.build
  rw [← hC.congruent.beq h.2.2 hC.congruent.zero]
  cases hmoves : p.step == 0 with
  | true => exact steps_throw _ b
  | false =>
    have hspan := hC.congruent.span h hmoves
    have hlength : p.length = q.length := by
      rw [Progression.length, Progression.length, hspan]
    rw [← hspan, ← hlength, if_neg Bool.false_ne_true, if_neg Bool.false_ne_true]
    split
    · exact steps_throw _ b
    · refine (hC.steps_spend _ b).bind fun _ _ n _ _ ↦ steps_pure (.list ?_) n
      rw [Value.relatedAll_iff, Progression.items, Progression.items, ← hlength]
      refine List.forall₂_map_left_iff.2 (List.forall₂_map_right_iff.2 ?_)
      refine List.forall₂_same.2 fun i _ ↦ .number ?_
      exact hC.congruent.item i h hstart hstep hmoves

/-- The progressions that related whole numbers describe are related, and of whole numbers. -/
theorem Lawful.related_ofArguments? (hC : C.Lawful) {xs xs' : List Float}
    (h : List.Forall₂ (fun x x' ↦ C.numbers x x' ∧ Number.isWhole x) xs xs') :
    Option.Rel (fun p q ↦ p.Related C.numbers q ∧ Number.isWhole p.start ∧ Number.isWhole p.step)
      (Progression.ofArguments? xs) (Progression.ofArguments? xs') := by
  have hzero := hC.congruent.zero
  have hone := hC.congruent.one
  have hwhole : Number.isWhole 0 ∧ Number.isWhole 1 := by decide
  rcases h with _ | ⟨⟨hx, hwx⟩, _ | ⟨⟨hy, -⟩, _ | ⟨⟨hz, hwz⟩, _ | _⟩⟩⟩
  · exact .none
  · exact .some ⟨⟨hzero, hx, hone⟩, hwhole⟩
  · exact .some ⟨⟨hx, hy, hone⟩, hwx, hwhole.2⟩
  · exact .some ⟨⟨hx, hy, hz⟩, hwx, hwz⟩
  · exact .none

theorem steps_mapM {α β γ δ : Type} {r : α → β → Prop} {ok : γ → δ → Prop} {as : List α}
    {bs : List β} {f : α → EvalM γ} {g : β → EvalM δ} (h : List.Forall₂ r as bs)
    (hf : ∀ a a' n, r a a' → C.Steps ok (f a) (g a') n) (b : Nat) :
    C.Steps (List.Forall₂ ok) (as.mapM f) (bs.mapM g) b := by
  induction h generalizing b with
  | nil => exact steps_pure .nil b
  | cons hab _ ih =>
    rw [List.mapM_cons, List.mapM_cons]
    refine (hf _ _ b hab).bind fun c c' n _ hc ↦ ?_
    exact (ih n).bind fun cs cs' m _ hcs ↦ steps_pure (.cons hc hcs) m

theorem Lawful.steps_rangeOf (hC : C.Lawful) {args args' : List Value}
    (h : Value.RelatedAll C.numbers args args') (b : Nat) :
    C.Steps (Value.Related C.numbers) (rangeOf args) (rangeOf args') b := by
  have harguments := steps_mapM (f := fun v ↦ liftM (rangeArgument v))
    (g := fun v ↦ liftM (rangeArgument v)) (Value.relatedAll_iff.1 h)
    (fun v v' n hv ↦ steps_liftM (hC.outcomes_rangeArgument hv) n) b
  refine harguments.bind fun xs xs' n _ hxs ↦ ?_
  have hprogression := hC.related_ofArguments? hxs
  revert hprogression
  generalize Progression.ofArguments? xs = p
  generalize Progression.ofArguments? xs' = q
  rintro (⟨hpq, hstart, hstep⟩ | _)
  · exact hC.steps_build hpq hstart hstep n
  · exact steps_throw _ n

theorem outcomes_iterate (h : Value.Related C.numbers v v') :
    C.Outcomes (Value.RelatedAll C.numbers) (iterate v) (iterate v') := by
  unfold iterate
  rw [h.kind_eq]
  have hitems := h.items?
  revert hitems
  generalize v.items? = items
  generalize v'.items? = items'
  rintro (hitems | _)
  · exact hitems
  · exact .inr (.refl _)

end Operations

/-! ### Environments -/

section Environments

variable {env env' : Env}

theorem Envs.bind (h : C.Envs env env') {v v' : Value} (hv : Value.Related C.numbers v v')
    (loopVar : String) : C.Envs (env.bind loopVar v) (env'.bind loopVar v') :=
  ⟨h.left, h.right, .cons ⟨rfl, hv⟩ h.locals⟩

theorem related_lookup {locals locals' : List (String × Value)}
    (h : List.Forall₂ (fun p q ↦ p.1 = q.1 ∧ Value.Related C.numbers p.2 q.2) locals locals')
    (word : String) :
    Option.Rel (Value.Related C.numbers) (locals.lookup word) (locals'.lookup word) := by
  induction h with
  | nil => exact .none
  | @cons p q _ _ hpq _ ih =>
    obtain ⟨loopVar, v⟩ := p
    obtain ⟨loopVar', v'⟩ := q
    obtain ⟨rfl, hv⟩ := hpq
    rw [List.lookup_cons, List.lookup_cons]
    cases word == loopVar with
    | true => exact .some hv
    | false => exact ih

/-- A name stands for related values. Assumes: if it is no variable, then the board's names do. -/
theorem Envs.outcomes_find (h : C.Envs env env') {word : String}
    (hboard : C.Outcomes (Value.Related C.numbers) (C.left.find word) (C.right.find word)) :
    C.Outcomes (Value.Related C.numbers) (env.find word) (env'.find word) := by
  unfold Env.find
  rw [h.left, h.right]
  have hlookup := related_lookup h.locals word
  revert hlookup
  generalize env.locals.lookup word = x
  generalize env'.locals.lookup word = x'
  rintro (hv | _)
  · exact hv
  · exact hboard

end Environments

/-! ### Rows of expressions -/

/-- The evaluations of an expression agree at every site. -/
def AgreesOn (C : Comparison) (e : Expr) : Prop :=
  ∀ env env' b, C.Envs env env' → C.sites ⟨e, env, b⟩ →
    C.Steps (Value.Related C.numbers) (e.eval env) (e.eval env') b

section Rows

variable {env env' : Env} {b : Nat}

theorem steps_evalAll {es : List Expr} (h : ∀ e ∈ es, C.AgreesOn e) (henv : C.Envs env env')
    (hsites : ∀ p, RowCalls (fun _ ↦ true) env es b p → C.sites p) :
    C.Steps (Value.RelatedAll C.numbers) (Expr.evalAll es env) (Expr.evalAll es env') b := by
  induction es generalizing b with
  | nil => exact steps_pure .nil b
  | cons e es ih =>
    obtain ⟨he, hes⟩ := List.forall_mem_cons.1 h
    rw [Expr.evalAll, Expr.evalAll]
    refine (he env env' b henv (hsites _ .head)).bind fun v v' n heval hv ↦ ?_
    refine (ih hes fun p hp ↦ hsites p (.tail heval rfl hp)).bind fun vs vs' m _ hvs ↦ ?_
    exact steps_pure (.cons hv hvs) m

theorem Lawful.steps_evalLinks (hC : C.Lawful) {links : List Link}
    (h : ∀ l ∈ links, C.AgreesOn l.operand) (henv : C.Envs env env') {lhs lhs' : Value}
    (hlhs : Value.Related C.numbers lhs lhs')
    (hsites : ∀ p, LinkCalls env links lhs b p → C.sites p) :
    C.Steps Eq (Expr.evalLinks links env lhs) (Expr.evalLinks links env' lhs') b := by
  induction links generalizing lhs lhs' b with
  | nil => exact steps_pure rfl b
  | cons l links ih =>
    obtain ⟨op, operand⟩ := l
    obtain ⟨hl, hlinks⟩ := List.forall_mem_cons.1 h
    rw [Expr.evalLinks, Expr.evalLinks]
    refine (hl env env' b henv (hsites _ .head)).bind fun rhs rhs' n heval hrhs ↦ ?_
    refine (steps_liftM (hC.outcomes_holds op hlhs hrhs) n).bind ?_
    rintro holds _ m hholds rfl
    cases holds with
    | false => exact steps_pure rfl m
    | true =>
      obtain ⟨hop, rfl⟩ : op.holds lhs rhs = .ok true ∧ m = n := by
        revert hholds
        generalize op.holds lhs rhs = x
        intro hholds
        rcases x with e | flag
        · cases hholds
        · cases hholds
          exact ⟨rfl, rfl⟩
      exact ih hlinks hrhs fun p hp ↦ hsites p (.tail heval hop hp)

theorem Lawful.steps_evalFilters (hC : C.Lawful) {filters : List Expr}
    (h : ∀ e ∈ filters, C.AgreesOn e) (henv : C.Envs env env')
    (hsites : ∀ p, RowCalls Value.isTruthy env filters b p → C.sites p) :
    C.Steps Eq (Expr.evalFilters filters env) (Expr.evalFilters filters env') b := by
  induction filters generalizing b with
  | nil => exact steps_pure rfl b
  | cons e es ih =>
    obtain ⟨he, hes⟩ := List.forall_mem_cons.1 h
    rw [Expr.evalFilters, Expr.evalFilters]
    refine (he env env' b henv (hsites _ .head)).bind fun v v' n heval hv ↦ ?_
    rw [← hC.isTruthy_eq hv]
    cases htruthy : v.isTruthy with
    | false => exact steps_pure rfl n
    | true => exact ih hes fun p hp ↦ hsites p (.tail heval htruthy hp)

end Rows

/-! ### Clauses -/

section Clauses

variable {element : Expr} {c : Clause} {clauses : List Clause} {env env' : Env} {b : Nat}

/-- The items of a clause from one on. Assumes: the items before it were run through. -/
theorem steps_items {run before : List Value} {start : Nat} {built : List (List Value)} {v : Value}
    (hitems : c.items.eval env start = .ok (v, b))
    (hv : ∀ item ∈ run, ∀ item', Value.Related C.numbers item item' → ∀ n,
      Reaches element c clauses env start item n →
      C.Steps (Value.RelatedAll C.numbers)
        (Expr.evalItem (Expr.buildElement element) c clauses env item)
        (Expr.evalItem (Expr.buildElement element) c clauses env' item') n)
    {run' : List Value} (hrun : List.Forall₂ (Value.Related C.numbers) run run')
    (hvitems : v.items? = some (before ++ run)) {n : Nat}
    (hbefore : before.mapM (Expr.evalItem (Expr.buildElement element) c clauses env) b =
      .ok (built, n)) :
    C.Steps (List.Forall₂ (Value.RelatedAll C.numbers))
      (run.mapM (Expr.evalItem (Expr.buildElement element) c clauses env))
      (run'.mapM (Expr.evalItem (Expr.buildElement element) c clauses env')) n := by
  induction hrun generalizing before built n with
  | nil => exact steps_pure .nil n
  | @cons item item' rest rest' hitem _ ih =>
    obtain ⟨hfirst, hrest⟩ := List.forall_mem_cons.1 hv
    rw [List.mapM_cons, List.mapM_cons]
    refine (hfirst item' hitem n ⟨v, b, before, rest, built, hitems, hvitems, hbefore⟩).bind ?_
    intro row row' m heval hrow
    have hnext : (before ++ [item]).mapM
        (Expr.evalItem (Expr.buildElement element) c clauses env) b = .ok (built ++ [row], m) := by
      rw [List.mapM_append, StateT.bind_of_ok hbefore, List.mapM_cons, bind_assoc,
        StateT.bind_of_ok heval]
      rfl
    refine (ih hrest (by rw [hvitems, List.append_assoc]; rfl) hnext).bind ?_
    exact fun rows rows' k _ hrows ↦ steps_pure (.cons hrow hrows) k

theorem relatedAll_flatten {r : Float → Float → Prop} {rows rows' : List (List Value)}
    (h : List.Forall₂ (Value.RelatedAll r) rows rows') :
    Value.RelatedAll r rows.flatten rows'.flatten := by
  rw [Value.relatedAll_iff]
  exact List.rel_flatten (h.imp fun _ _ ↦ Value.relatedAll_iff.1)

theorem Lawful.steps_buildElement (hC : C.Lawful) (h : C.AgreesOn element)
    (henv : C.Envs env env') (hsite : C.sites ⟨element, env, b⟩) :
    C.Steps (Value.RelatedAll C.numbers) (Expr.buildElement element env)
      (Expr.buildElement element env') b := by
  refine (h env env' b henv hsite).bind fun v v' n _ hv ↦ ?_
  rw [hv.weight_eq]
  exact (hC.steps_spend _ n).bind fun _ _ m _ _ ↦ steps_pure (.cons hv .nil) m

theorem Lawful.steps_evalClauses (hC : C.Lawful) (helement : C.AgreesOn element)
    (h : ∀ c ∈ clauses, C.AgreesOn c.items ∧ ∀ e ∈ c.filters, C.AgreesOn e)
    (henv : C.Envs env env') (hsites : ∀ p, ClauseCalls element clauses env b p → C.sites p) :
    C.Steps (Value.RelatedAll C.numbers)
      (Expr.evalClauses (Expr.buildElement element) clauses env)
      (Expr.evalClauses (Expr.buildElement element) clauses env') b := by
  induction clauses generalizing env env' b with
  | nil => exact hC.steps_buildElement helement henv (hsites _ .element)
  | cons c clauses ih =>
    obtain ⟨⟨hitems, hfilters⟩, hclauses⟩ := List.forall_mem_cons.1 h
    rw [Expr.evalClauses_cons, Expr.evalClauses_cons]
    refine (hitems env env' b henv (hsites _ .items)).bind fun v v' n heval hv ↦ ?_
    refine (steps_liftM (outcomes_iterate hv) n).bind fun run run' m hrun hrelated ↦ ?_
    obtain ⟨hvitems, rfl⟩ : v.items? = some run ∧ m = n := by
      revert hrun
      unfold iterate
      cases v.items? with
      | none => exact fun hrun ↦ by cases hrun
      | some items =>
        intro hrun
        cases hrun
        exact ⟨rfl, rfl⟩
    have hitem (item : Value) (_ : item ∈ run) (item' : Value)
        (hpair : Value.Related C.numbers item item') (k : Nat)
        (hreaches : Reaches element c clauses env b item k) :
        C.Steps (Value.RelatedAll C.numbers)
          (Expr.evalItem (Expr.buildElement element) c clauses env item)
          (Expr.evalItem (Expr.buildElement element) c clauses env' item') k := by
      have hinner := henv.bind hpair c.loopVar
      refine (hC.steps_evalFilters hfilters hinner fun p hp ↦
        hsites p (.filter hreaches hp)).bind ?_
      rintro holds _ j hholds rfl
      cases holds with
      | false => exact steps_pure .nil j
      | true => exact ih hclauses hinner fun p hp ↦ hsites p (.inner hreaches hholds hp)
    have hall : v.items? = some ([] ++ run) := hvitems
    refine (steps_items heval hitem (Value.relatedAll_iff.1 hrelated) hall rfl).bind ?_
    exact fun rows rows' k _ hrows ↦ steps_pure (relatedAll_flatten hrows) k

end Clauses

/-! ### Expressions -/

/-- The evaluations of an expression agree wherever its place is a site: they end with related
values and the same difference of budgets, or with related faults, unless the left one ends with a
fault that is excused. -/
theorem Lawful.agree_eval (hC : C.Lawful) (e : Expr) : C.AgreesOn e := by
  induction e with
  | number value =>
    exact fun env env' b _ hsite ↦ steps_pure (.number (hC.number hsite)) b
  | name word =>
    exact fun env env' b henv hsite ↦ steps_liftM (henv.outcomes_find (hC.name hsite)) b
  | unary op operand ih =>
    intro env env' b henv hsite
    refine (ih env env' b henv (hC.calls hsite .unary)).bind fun v v' n _ hv ↦ ?_
    exact steps_liftM (hC.outcomes_unary op hv) n
  | binary op lhs rhs ihl ihr =>
    intro env env' b henv hsite
    refine (ihl env env' b henv (hC.calls hsite (.binary .head))).bind fun v v' n hl hv ↦ ?_
    refine (ihr env env' n henv (hC.calls hsite (.binary (.tail hl rfl .head)))).bind ?_
    intro w w' m hr hw
    exact hC.steps_apply hv hw
      (fun x x' y y' hx hy hxx' hyy' ↦ hC.arithmetic hsite hl hr hx hy hxx' hyy') m
  | compare first links ihf ihl =>
    intro env env' b henv hsite
    refine (ihf env env' b henv (hC.calls hsite .compareFirst)).bind fun v v' n hf hv ↦ ?_
    refine (hC.steps_evalLinks ihl henv hv fun p hp ↦
      hC.calls hsite (.compareLinks hf hp)).bind ?_
    rintro holds _ m - rfl
    exact steps_pure (.bool holds) m
  | logic op lhs rhs ihl ihr =>
    intro env env' b henv hsite
    refine (ihl env env' b henv (hC.calls hsite (.logic .head))).bind fun v v' n hl hv ↦ ?_
    rw [← hC.decides_eq op hv]
    cases hdecides : op.decides v with
    | true => exact steps_pure hv n
    | false =>
      exact ihr env env' n henv
        (hC.calls hsite (.logic (.tail hl (congrArg not hdecides) .head)))
  | conditional value condition otherwise ihv ihc iho =>
    intro env env' b henv hsite
    refine (ihc env env' b henv (hC.calls hsite .condition)).bind fun v v' n hc hv ↦ ?_
    have hbranch := hC.calls hsite (.branch hc)
    rw [← hC.isTruthy_eq hv]
    revert hbranch
    cases v.isTruthy with
    | true => exact ihv env env' n henv
    | false => exact iho env env' n henv
  | tuple items ih =>
    intro env env' b henv hsite
    refine (steps_evalAll ih henv fun p hp ↦ hC.calls hsite (.tuple hp)).bind ?_
    exact fun vs vs' n _ hvs ↦ steps_pure (.tuple hvs) n
  | list items ih =>
    intro env env' b henv hsite
    refine (steps_evalAll ih henv fun p hp ↦ hC.calls hsite (.list hp)).bind ?_
    exact fun vs vs' n _ hvs ↦ steps_pure (.list hvs) n
  | comprehension element clauses ihe ihc =>
    intro env env' b henv hsite
    rw [Expr.eval_comprehension, Expr.eval_comprehension]
    refine (hC.steps_evalClauses ihe ihc henv fun p hp ↦
      hC.calls hsite (.comprehension hp)).bind ?_
    exact fun vs vs' n _ hvs ↦ steps_pure (.list hvs) n
  | range args ih =>
    intro env env' b henv hsite
    refine (steps_evalAll ih henv fun p hp ↦ hC.calls hsite (.range hp)).bind ?_
    exact fun vs vs' n _ hvs ↦ hC.steps_rangeOf hvs n

/-- Whole expressions agree. Assumes: the budgets are the same. -/
theorem Lawful.agree_evaluate (hC : C.Lawful) (hslack : C.slack = 0) {e : Expr}
    (hsite : C.sites (.start e C.left)) :
    C.Outcomes (Value.Related C.numbers) (e.evaluate C.left) (e.evaluate C.right) := by
  have hsteps := hC.agree_eval e _ (.ofBoard C.right) maxValues ⟨rfl, rfl, .nil⟩ hsite
  unfold Steps at hsteps
  rw [hslack, Nat.add_zero] at hsteps
  exact hsteps.map fun p q hpq ↦ hpq.1

/-- The faults of a formula that are excused. -/
def Excuses (C : Comparison) (e : ExprError) : Prop :=
  ∃ fault, e.cause = .failed fault ∧ C.excused fault

/-- The paths of a formula agree. Assumes: the budgets are the same. -/
theorem Lawful.agree_relativePaths (hC : C.Lawful) (hslack : C.slack = 0) {f : Formula}
    (hsite : C.sites (.start f.expr C.left)) :
    Except.Agrees C.Excuses (ExprError.Related C.numbers) (List.Forall₂ (Path.Related C.numbers))
      (f.relativePaths C.left) (f.relativePaths C.right) := by
  have hvalue := hC.agree_evaluate hslack hsite
  unfold Formula.relativePaths
  revert hvalue
  generalize f.expr.evaluate C.left = x
  generalize f.expr.evaluate C.right = y
  intro hvalue
  rcases x with fault | v <;> rcases y with fault' | v'
  · rcases hvalue with hexcused | hrelated
    · exact .inl ⟨fault, rfl, hexcused⟩
    · exact .inr (.failed f.source hrelated)
  · dsimp only
    generalize v'.toPaths? = paths
    cases paths with
    | none => exact .inl ⟨fault, rfl, hvalue⟩
    | some paths => exact ⟨fault, rfl, hvalue⟩
  · exact hvalue.elim
  · have hpaths := hvalue.toPaths?
    dsimp only
    revert hpaths
    generalize v.toPaths? = paths
    generalize v'.toPaths? = paths'
    rintro (hpaths | _)
    · exact hpaths
    · exact .inr (.misshapen f.source hvalue)

/-! ### One evaluation twice -/

/-- An evaluation next to itself. -/
def identical (b : Bindings) : Comparison where
  left := b
  right := b
  numbers := (· = ·)
  excused _ := False
  slack := 0
  sites _ := True

theorem identical_lawful (b : Bindings) : (identical b).Lawful where
  congruent := congruent_eq
  budget := .inl rfl
  calls := fun _ _ ↦ trivial
  number := fun _ ↦ rfl
  name := fun _ ↦ Bindings.Related.agree_find ⟨rfl, rfl, rfl, rfl, rfl⟩ _ fun _ _ ↦ rfl
  arithmetic := by
    rintro op lhs rhs env n n' n'' v w x _ y _ - - - - - rfl rfl
    exact .self .refl fun _ _ ↦ rfl

end Comparison

end Waypoints
