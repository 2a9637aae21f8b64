import Mathlib.Algebra.GroupWithZero.Nat
import Mathlib.Order.Nat
import Mathlib.Tactic.SplitIfs
import Waypoints.Expr.Evaluation
import Waypoints.Proofs.Ensures
/-!
# What steps of an evaluation are charged for

`EvalM.Charges x w n` says that a step spends from the budget and that its result weighs at most
what it has spent and `n` more. The rules compute `n` for a step from its parts; `spend` counts as a
step whose result weighs what is paid, so that what is paid for makes up for the values built.
-/

set_option autoImplicit false
set_option relaxedAutoImplicit false

namespace Waypoints

/-! ### Weights -/

namespace Value

theorem totalWeight_eq_sum (vs : List Value) : totalWeight vs = (vs.map weight).sum := by
  induction vs with
  | nil => rfl
  | cons v vs ih => rw [totalWeight, List.map_cons, List.sum_cons, ih]

theorem totalWeight_append (as bs : List Value) :
    totalWeight (as ++ bs) = totalWeight as + totalWeight bs := by
  simp only [totalWeight_eq_sum, List.map_append, List.sum_append]

theorem totalWeight_flatten (rows : List (List Value)) :
    totalWeight rows.flatten = (rows.map totalWeight).sum := by
  induction rows with
  | nil => rfl
  | cons row rows ih =>
    rw [List.flatten_cons, totalWeight_append, List.map_cons, List.sum_cons, ih]

theorem one_le_weight (v : Value) : 1 ≤ v.weight := by
  cases v with
  | number value => exact Nat.le_refl 1
  | bool flag => exact Nat.le_refl 1
  | tuple items => exact Nat.succ_le_succ (Nat.zero_le _)
  | list items => exact Nat.succ_le_succ (Nat.zero_le _)

theorem weight_of_items? {v : Value} {items : List Value} (h : v.items? = some items) :
    v.weight = totalWeight items + 1 := by
  cases v with
  | number value => cases h
  | bool flag => cases h
  | tuple items' | list items' =>
    obtain rfl := Option.some.inj h
    rfl

end Value

/-! ### The rules -/

open StateT (ensures_bind ensures_ite)

section Rules

variable {α β : Type} {w : α → Nat} {w' : β → Nat} {m n : Nat}

/-- A step spends from the budget, and its result weighs at most what it spends and `n` more. -/
def Charges (x : EvalM α) (w : α → Nat) (n : Nat) : Prop :=
  ∀ b, x.Ensures b (fun a b' ↦ b' ≤ b ∧ w a + b' ≤ b + n) fun _ ↦ True

theorem Charges.of_eq_ok {x : EvalM α} (h : Charges x w n) {a : α} {b b' : Nat}
    (hx : x b = .ok (a, b')) : b' ≤ b ∧ w a + b' ≤ b + n := by
  have hb := h b
  rwa [StateT.Ensures, hx] at hb

theorem Charges.mono {x : EvalM α} (h : Charges x w m) (hn : m ≤ n) : Charges x w n :=
  fun b ↦ (h b).mono (fun _ _ ⟨hb, hw⟩ ↦ ⟨hb, hw.trans (Nat.add_le_add_left hn b)⟩) fun _ h ↦ h

/-- A result that is not looked at weighs nothing. -/
theorem Charges.ignore {x : EvalM α} (h : Charges x w n) : Charges x (fun _ ↦ 0) 0 :=
  fun b ↦ (h b).mono (fun _ b' ⟨hb, _⟩ ↦ ⟨hb, (Nat.zero_add b').le.trans hb⟩) fun _ h ↦ h

theorem charges_pure (a : α) : Charges (pure a) w (w a) :=
  fun b ↦ ⟨Nat.le_refl b, (Nat.add_comm _ _).le⟩

theorem charges_throw (fault : EvalFault) : Charges (throw fault : EvalM α) w n :=
  fun _ ↦ trivial

theorem charges_liftM {x : Except EvalFault α} (h : ∀ a, x = .ok a → w a ≤ n) :
    Charges (liftM x) w n := by
  intro b
  rw [StateT.ensures_liftM]
  cases x with
  | error fault => trivial
  | ok a =>
    have hw := h a rfl
    exact ⟨Nat.le_refl b, by omega⟩

/-- What is paid weighs as much as it costs. -/
theorem charges_spend (values : Nat) : Charges (spend values) (fun _ ↦ values) 0 := by
  intro b
  rw [spend, ensures_bind, StateT.ensures_get, ensures_ite]
  split
  · next hle =>
    rw [StateT.ensures_modify]
    exact ⟨Nat.sub_le b values, (Nat.add_sub_of_le hle).le⟩
  · trivial

/-- Two steps, the second of which is charged for no more than the whole, or for no more than the
first result weighs beyond what it is charged for. -/
theorem Charges.bind {x : EvalM α} {f : α → EvalM β} (hx : Charges x w m)
    (hf : ∀ a, ∃ k, Charges (f a) w' k ∧ (k ≤ n ∨ k + m ≤ w a + n)) : Charges (x >>= f) w' n := by
  intro b
  rw [ensures_bind]
  refine (hx b).mono (fun a b' ⟨hb, hw⟩ ↦ ?_) fun _ h ↦ h
  obtain ⟨k, hcharges, hk⟩ := hf a
  refine (hcharges b').mono (fun r b'' ⟨hb', hw'⟩ ↦ ⟨hb'.trans hb, ?_⟩) fun _ h ↦ h
  omega

/-- A step whose first part is not looked at. -/
theorem Charges.seq {x : EvalM α} {f : α → EvalM β} (hx : Charges x w m)
    (hf : ∀ a, Charges (f a) w' n) : Charges (x >>= f) w' n :=
  hx.bind fun a ↦ ⟨n, hf a, .inl (Nat.le_refl n)⟩

/-- A row of steps that are charged for nothing. -/
theorem charges_mapM {f : α → EvalM β} {as : List α} (h : ∀ a ∈ as, Charges (f a) w' 0) :
    Charges (as.mapM f) (fun bs ↦ (bs.map w').sum) 0 := by
  refine StateT.ensures_mapM (fun b ↦ ⟨Nat.le_refl b, (Nat.zero_add b).le⟩) fun a ha b ↦ ?_
  refine (h a ha b).mono (fun r b' ⟨hb, hw⟩ rs b'' ⟨hb', hws⟩ ↦ ⟨hb'.trans hb, ?_⟩) fun _ h ↦ h
  change ((r :: rs).map w').sum + b'' ≤ b
  change (rs.map w').sum + b'' ≤ b' at hws
  rw [List.map_cons, List.sum_cons]
  omega

end Rules

/-! ### Operations -/

theorem weight_of_apply {op : UnaryOp} {v r : Value} (h : op.apply v = .ok r) : r.weight = 1 := by
  cases op with
  | not =>
    obtain rfl := Except.ok.inj h
    rfl
  | plus | minus =>
    simp only [UnaryOp.apply] at h
    cases hv : numberOperand _ v with
    | error fault =>
      rw [hv] at h
      cases h
    | ok x =>
      rw [hv] at h
      obtain rfl := Except.ok.inj h
      rfl

theorem weight_of_onNumbers {op : BinaryOp} {lhs rhs r : Value}
    (h : op.onNumbers lhs rhs = .ok r) : r.weight = 1 := by
  unfold BinaryOp.onNumbers at h
  split at h
  · next a b _ _ =>
    cases hab : op.arithmetic a b with
    | error fault =>
      rw [hab] at h
      cases h
    | ok x =>
      rw [hab] at h
      obtain rfl := Except.ok.inj h
      rfl
  · cases h

theorem weight_of_find {b : Bindings} {word : String} {v : Value} (h : b.find word = .ok v) :
    v.weight = 1 := by
  unfold Bindings.find at h
  split_ifs at h <;>
  · obtain rfl := Except.ok.inj h
    rfl

/-- An operator is charged for its left operand. -/
theorem charges_apply (op : BinaryOp) (lhs rhs : Value) :
    Charges (op.apply lhs rhs) Value.weight lhs.weight := by
  unfold BinaryOp.apply
  split
  · next as bs =>
    refine (charges_spend _).bind fun _ ↦ ⟨_, charges_pure _, .inr ?_⟩
    simp only [Value.weight, Value.totalWeight_append]
    omega
  · next as bs =>
    refine (charges_spend _).bind fun _ ↦ ⟨_, charges_pure _, .inr ?_⟩
    simp only [Value.weight, Value.totalWeight_append]
    omega
  · refine charges_liftM fun r hr ↦ ?_
    rw [weight_of_onNumbers hr]
    exact lhs.one_le_weight

theorem totalWeight_items (p : Progression) : Value.totalWeight p.items = p.length := by
  have hone : p.items.map Value.weight = List.replicate p.length 1 := by
    rw [Progression.items, List.map_map, List.eq_replicate_iff]
    refine ⟨by rw [List.length_map, List.length_range], fun n hn ↦ ?_⟩
    obtain ⟨i, -, rfl⟩ := List.mem_map.1 hn
    rfl
  rw [Value.totalWeight_eq_sum, hone, List.sum_replicate_nat, Nat.mul_one]

/-- A range is charged for the list without its items. -/
theorem charges_rangeOf (args : List Value) : Charges (rangeOf args) Value.weight 1 := by
  have hargs : Charges (args.mapM fun v ↦ (liftM (rangeArgument v) : EvalM Float))
      (fun _ ↦ 0) 0 :=
    (charges_mapM fun v _ ↦ charges_liftM fun _ _ ↦ Nat.le_refl 0).ignore
  refine hargs.seq fun numbers ↦ ?_
  split
  · next p _ =>
    unfold Progression.build
    split_ifs
    · exact charges_throw _
    · exact charges_throw _
    · refine (charges_spend _).bind fun _ ↦ ⟨_, charges_pure _, .inr ?_⟩
      rw [Value.weight, totalWeight_items]
  · exact charges_throw _

end Waypoints
