import Waypoints.Proofs.Evaluation.Integers
/-!
# Exact integer arithmetic

Where every number that a run over the integers produces is at most `maxInteger` in magnitude, the
evaluation in binary64 gives the same value, with the same integers for its numbers, or an error of
the same class (`exact_on_integers`). Sums, products and remainders of such integers are exact, and
a range has as many items as over the integers (`span_eq`), since quotients keep their ceilings.
-/

set_option autoImplicit false
set_option relaxedAutoImplicit false

namespace Waypoints

/-! ### Runs that agree -/

section Runs

variable {α β : Type}

/-- A run that produces no number beyond `maxInteger`. -/
def IntRun.IsSmall (x : IntRun α) : Prop :=
  ∀ n ∈ x.produced, n.natAbs ≤ maxInteger

/-- A run over the integers and an outcome of the evaluation: results that correspond, with as much
of the budget left, or errors of one class. -/
def IntRun.Agrees (ok : α → β → Prop) (x : IntRun α) (y : Except EvalFault (β × Nat)) : Prop :=
  x.outcome.Agrees (fun _ ↦ False) (fun c fault ↦ c = fault.errorClass)
    (fun p q ↦ ok p.1 q.1 ∧ p.2 = q.2) y

/-- The steps of the evaluation that agree with runs over the integers, as long as the runs are
small. -/
def following : Lifting IntM where
  Rel ok x y := ∀ b, (x b).IsSmall → (x b).Agrees ok (y b)
  pure h := fun _ _ ↦ ⟨h, rfl⟩
  bind {_ _ _ _ ok ok' x y f g} h hf := by
    intro b hsmall
    have hrun : (x >>= f) b = match x b with
      | ⟨produced, .error c⟩ => ⟨produced, .error c⟩
      | ⟨produced, .ok (a, left)⟩ => ⟨produced ++ (f a left).produced, (f a left).outcome⟩ := rfl
    change IntRun.Agrees ok' ((x >>= f) b) (Except.bind (y b) fun p ↦ g p.1 p.2)
    have hx := h b
    rw [hrun] at hsmall ⊢
    revert hsmall hx
    rcases x b with ⟨produced, c | ⟨a, left⟩⟩
    · intro hsmall hx
      have hagrees := hx hsmall
      revert hagrees
      rcases y b with fault | q
      · exact fun h ↦ h
      · exact False.elim
    · intro hsmall hx
      obtain ⟨hfirst, hrest⟩ := List.forall_mem_append.1 hsmall
      have hagrees := hx hfirst
      revert hagrees
      rcases y b with fault | ⟨a', left'⟩
      · exact False.elim
      · rintro ⟨hok, rfl⟩
        exact hf a a' hok left hrest

variable {ok : α → β → Prop}

theorem following_error {c : ExprErrorClass} {fault : EvalFault} (h : c = fault.errorClass) :
    following.Rel ok (.ofExcept (.error c)) (liftM (.error fault : Except EvalFault β)) :=
  fun _ _ ↦ .inr h

theorem following_throw {c : ExprErrorClass} {fault : EvalFault} (h : c = fault.errorClass) :
    following.Rel ok (.ofExcept (.error c)) (throw fault : EvalM β) :=
  fun _ _ ↦ .inr h

theorem following_ok {a : α} {b : β} (h : ok a b) :
    following.Rel ok (.ofExcept (.ok a)) (liftM (.ok b : Except EvalFault β)) :=
  fun _ _ ↦ ⟨h, rfl⟩

/-- A step that has a result where an option has a value. -/
theorem following_ofOption {c : ExprErrorClass} {x : Option α} {y : Option β}
    {z : Except EvalFault β} {fault : EvalFault} (h : Option.Rel ok x y)
    (hsome : ∀ b, y = some b → z = .ok b) (hnone : y = none → z = .error fault)
    (hfault : c = fault.errorClass) : following.Rel ok (.ofOption c x) (liftM z) := by
  cases h with
  | @some a b h =>
    rw [hsome b rfl]
    exact following_ok h
  | none =>
    rw [hnone rfl]
    exact following_error hfault

/-- A number that is produced is small. -/
theorem following_produce {n : Int} {x : Float}
    (h : n.natAbs ≤ maxInteger → Number.Same x (Number.ofInt n)) :
    following.Rel IntValue.Represents (.produce n) (pure (.number x)) := by
  intro b hsmall
  have hn := hsmall n (List.mem_singleton_self n)
  exact ⟨.number ⟨hn, h hn⟩, rfl⟩

theorem following_pay {m n : Nat} (h : m = n) :
    following.Rel (fun _ _ ↦ True) (.pay m) (spend n) := by
  subst h
  intro b _
  unfold spend
  change IntRun.Agrees _ (IntM.pay m b) ((if m ≤ b then _ else _ : EvalM Unit) b)
  unfold IntM.pay IntRun.Agrees
  split
  · exact ⟨trivial, rfl⟩
  · exact .inr rfl

end Runs

/-! ### Operators -/

theorem liftM_bind {α β : Type} (x : Except EvalFault α) (f : α → Except EvalFault β) :
    (liftM (x >>= f) : EvalM β) = liftM x >>= fun a ↦ liftM (f a) := by
  cases x <;> rfl

section Operators

open Number (Same IsInteger ofInt)

variable {a b : Int} {x y : Float} {v v' : IntValue} {w w' : Value}

theorem following_unary (op : UnaryOp) (h : v.Represents w) :
    following.Rel IntValue.Represents (v.unary op) (liftM (op.apply w)) := by
  have hoperand (op : UnaryOp) :
      following.Rel IsInteger (.ofOption .type v.toInt?) (liftM (numberOperand op w)) := by
    have hfault : ExprErrorClass.type = (EvalFault.badOperand op w.kind).errorClass := rfl
    refine following_ofOption h.toInt? (fun x hx ↦ ?_) (fun hx ↦ ?_) hfault
    · rw [numberOperand, hx]
    · rw [numberOperand, hx]
  cases op with
  | not =>
    refine following.pure ?_
    rw [h.isTruthy_eq]
    exact .bool _
  | plus =>
    rw [UnaryOp.apply, liftM_bind]
    exact following.bind (hoperand .plus) fun n x hx ↦ following_produce fun _ ↦ hx.2
  | minus =>
    rw [UnaryOp.apply, liftM_bind]
    exact following.bind (hoperand .minus) fun n x hx ↦ following_produce fun _ ↦ hx.neg.2

/-- An operator on integers that are small, before the result is known to be small. -/
theorem agrees_compute {op : BinaryOp} (hop : op ≠ .div ∧ op ≠ .pow) (hx : IsInteger a x)
    (hy : IsInteger b y) :
    Except.Agrees (fun _ ↦ False) (fun c fault ↦ c = fault.errorClass)
      (fun n z ↦ n.natAbs ≤ maxInteger → Same z (ofInt n)) (op.onIntegers a b)
      (op.compute x y) := by
  have hzero : (y == 0) = decide (b = 0) := hy.beq_eq .zero
  have hdivisor (hb : b ≠ 0) : y = ofInt b :=
    hy.2.eq_of_ne_zero (by rw [hzero, decide_eq_false hb])
  cases op with
  | add =>
    exact fun _ ↦ (hx.2.add hy.2).trans (Number.same_ofInt_add hx.natAbs_lt hy.natAbs_lt)
  | sub =>
    exact fun _ ↦ (hx.2.sub hy.2).trans (.of_eq (Number.ofInt_sub hx.natAbs_lt hy.natAbs_lt))
  | mul =>
    exact fun h ↦ (hx.2.mul hy.2).trans
      (Number.same_ofInt_mul hx.natAbs_lt hy.natAbs_lt (h.trans_lt (by decide)))
  | floorDiv =>
    rw [BinaryOp.onIntegers, BinaryOp.compute, nonzero, hzero]
    by_cases hb : b = 0
    · rw [if_pos hb, if_pos (decide_eq_true hb)]
      exact .inr rfl
    · rw [if_neg hb, decide_eq_false hb, if_neg Bool.false_ne_true, hdivisor hb]
      exact fun _ ↦ hx.2.div.floor.trans (Number.same_floor_div hb hx.natAbs_le hy.natAbs_le)
  | mod =>
    rw [BinaryOp.onIntegers, BinaryOp.compute, nonzero, hzero]
    by_cases hb : b = 0
    · rw [if_pos hb, if_pos (decide_eq_true hb)]
      exact .inr rfl
    · rw [if_neg hb, decide_eq_false hb, if_neg Bool.false_ne_true, hdivisor hb]
      exact fun _ ↦ (hx.2.sub ((Same.refl _).mul hx.2.div.floor)).trans
        (Number.same_mod hb hx.1 hy.1)
  | div => exact absurd rfl hop.1
  | pow => exact absurd rfl hop.2

theorem arithmetic_of_compute {op : BinaryOp} {z : Float} (h : op.compute x y = .ok z)
    (hnan : z.isNaN = false) : op.arithmetic x y = .ok z := by
  rw [BinaryOp.arithmetic, h]
  change (if (z.isNaN && _ && _) = true then _ else _) = _
  rw [hnan]
  rfl

theorem arithmetic_of_compute_error {op : BinaryOp} {fault : EvalFault}
    (h : op.compute x y = .error fault) : op.arithmetic x y = .error fault := by
  rw [BinaryOp.arithmetic, h]
  rfl

theorem following_arithmetic {op : BinaryOp} (hop : op ≠ .div ∧ op ≠ .pow) (hv : v.Represents w)
    (hv' : v'.Represents w') :
    following.Rel IntValue.Represents (IntValue.arithmetic op v v')
      (liftM (op.onNumbers w w')) := by
  unfold IntValue.arithmetic BinaryOp.onNumbers
  have hx := hv.toInt?
  have hy := hv'.toInt?
  revert hx hy
  generalize v.toInt? = a?
  generalize v'.toInt? = b?
  generalize w.toNumber? = x?
  generalize w'.toNumber? = y?
  rintro (@⟨a, x, hx⟩ | _) (@⟨b, y, hy⟩ | _)
  · dsimp only
    have hcompute := agrees_compute hop hx hy
    revert hcompute
    rcases op.onIntegers a b with c | n <;> rcases hz : op.compute x y with fault | z
    · intro h
      rw [arithmetic_of_compute_error hz]
      exact following_error (h.resolve_left id)
    · exact False.elim
    · exact False.elim
    · intro h budget hsmall
      have hn := hsmall n (List.mem_singleton_self n)
      have hz' : IsInteger n z := ⟨hn, h hn⟩
      rw [arithmetic_of_compute hz hz'.isNaN_eq_false]
      exact ⟨.number hz', rfl⟩
  · exact following_error rfl
  · exact following_error rfl
  · exact following_error rfl

theorem following_binary {op : BinaryOp} (hop : op ≠ .div ∧ op ≠ .pow) (hv : v.Represents w)
    (hv' : v'.Represents w') :
    following.Rel IntValue.Represents (IntValue.binary op v v') (op.apply w w') := by
  have hnumbers := following_arithmetic hop hv hv'
  cases op with
  | add =>
    cases hv with
    | list hv =>
      cases hv' with
      | list hv' =>
        exact following.bind (following_pay hv'.totalWeight_eq) fun _ _ _ ↦
          following.pure (.list (hv.append hv'))
      | _ => exact hnumbers
    | tuple hv =>
      cases hv' with
      | tuple hv' =>
        exact following.bind (following_pay hv'.totalWeight_eq) fun _ _ _ ↦
          following.pure (.tuple (hv.append hv'))
      | _ => exact hnumbers
    | _ => exact hnumbers
  | _ => exact hnumbers

theorem following_ordered {before : Int → Int → Bool} {before' : Float → Float → Bool}
    (hbefore : ∀ a b x y, IsInteger a x → IsInteger b y → before a b = before' x y)
    (hv : v.Represents w) (hv' : v'.Represents w') :
    following.Rel Eq (IntValue.ordered before v v') (liftM (ordered before' w w')) := by
  unfold IntValue.ordered ordered
  have hx := hv.toInt?
  have hy := hv'.toInt?
  revert hx hy
  generalize v.toInt? = a?
  generalize v'.toInt? = b?
  generalize w.toNumber? = x?
  generalize w'.toNumber? = y?
  rintro (hx | _) (hy | _)
  · exact following.pure (hbefore _ _ _ _ hx hy)
  · exact following_error rfl
  · exact following_error rfl
  · exact following_error rfl

theorem following_holds (op : CompareOp) (hv : v.Represents w) (hv' : v'.Represents w') :
    following.Rel Eq (IntValue.holds op v v') (liftM (op.holds w w')) := by
  have hlt {a b : Int} {x y : Float} (hx : IsInteger a x) (hy : IsInteger b y) :
      decide (a < b) = decide (x < y) := decide_eq_decide.2 (hx.lt_iff hy).symm
  have hle {a b : Int} {x y : Float} (hx : IsInteger a x) (hy : IsInteger b y) :
      decide (a ≤ b) = decide (x ≤ y) := decide_eq_decide.2 (hx.le_iff hy).symm
  cases op with
  | eq => exact following.pure (hv.equals_eq hv')
  | ne => exact following.pure (congrArg not (hv.equals_eq hv'))
  | lt => exact following_ordered (fun _ _ _ _ hx hy ↦ hlt hx hy) hv hv'
  | le => exact following_ordered (fun _ _ _ _ hx hy ↦ hle hx hy) hv hv'
  | gt => exact following_ordered (fun _ _ _ _ hx hy ↦ hlt hy hx) hv hv'
  | ge => exact following_ordered (fun _ _ _ _ hx hy ↦ hle hy hx) hv hv'

end Operators

/-! ### Ranges -/

section Ranges

open Number (Same IsInteger ofInt)

variable {start stop step : Int}

theorem fdiv_lt_iff {a d q : Int} (hd : 0 < d) : a.fdiv d < q ↔ a < q * d := by
  rw [Int.fdiv_eq_ediv_of_nonneg _ hd.le, Int.ediv_lt_iff_lt_mul hd]

/-- The items of a range upwards are those before `stop`. -/
theorem lt_intLength_iff_of_pos (hstep : 0 < step) {i : Nat} :
    i < intLength start stop step ↔ start + step * i < stop := by
  have hlength : i < intLength start stop step ↔ (start - stop).fdiv step < -(i : Int) := by
    unfold intLength
    omega
  rw [hlength, fdiv_lt_iff hstep, neg_mul, mul_comm]
  omega

/-- The items of a range downwards are those before `stop`. -/
theorem lt_intLength_iff_of_neg (hstep : step < 0) {i : Nat} :
    i < intLength start stop step ↔ stop < start + step * i := by
  have hmirrored : intLength start stop step = intLength (-start) (-stop) (-step) := by
    rw [intLength, intLength, ← Int.neg_fdiv_neg, neg_sub_neg, neg_sub]
  rw [hmirrored, lt_intLength_iff_of_pos (neg_pos.2 hstep), neg_mul]
  omega

/-- An item of a range is between `start` and `stop`, and may be `start`. -/
theorem item_between (hstep : step ≠ 0) {i : Nat} (hi : i < intLength start stop step) :
    (start ≤ start + step * i ∧ start + step * i < stop) ∨
      (stop < start + step * i ∧ start + step * i ≤ start) := by
  rcases lt_or_gt_of_ne hstep with hneg | hpos
  · have hle : step * i ≤ 0 := mul_nonpos_of_nonpos_of_nonneg hneg.le (Int.natCast_nonneg i)
    exact .inr ⟨(lt_intLength_iff_of_neg hneg).1 hi, by omega⟩
  · have hle : 0 ≤ step * i := mul_nonneg hpos.le (Int.natCast_nonneg i)
    exact .inl ⟨by omega, (lt_intLength_iff_of_pos hpos).1 hi⟩

/-- An item of a range is less than the distance away from `start`. -/
theorem natAbs_mul_lt (hstep : step ≠ 0) {i : Nat} (hi : i < intLength start stop step) :
    (step * i).natAbs < (stop - start).natAbs := by
  have hbetween := item_between hstep hi
  omega

theorem intLength_le (start stop step : Int) :
    intLength start stop step ≤ (stop - start).natAbs := by
  have h := Int.natAbs_fdiv_le_natAbs (start - stop) step
  unfold intLength
  omega

/-- The span of a progression of integers is its length over the integers. -/
theorem span_eq {p : Progression} (hstart : IsInteger start p.start) (hstop : IsInteger stop p.stop)
    (hstep : IsInteger step p.step) (hne : step ≠ 0) :
    p.span = ofInt (intLength start stop step) := by
  have hdistance := hstop.natAbs_sub_le hstart
  have hdivisor : p.step = ofInt step :=
    hstep.2.eq_of_ne_zero ((hstep.beq_eq .zero).trans (decide_eq_false hne))
  have hsub : Same (p.stop - p.start) (ofInt (stop - start)) :=
    (hstop.2.sub hstart.2).trans
      (.of_eq (Number.ofInt_sub hstop.natAbs_lt hstart.natAbs_lt))
  have hsteps := (hsub.div (y := p.step)).ceil
  rw [hdivisor] at hsteps
  have hceil := Number.same_ceil_div hne hdistance hstep.natAbs_le
  rw [neg_sub] at hceil
  have hclamp := (hsteps.trans hceil).clamp_eq
  unfold Progression.span
  rw [hdivisor]
  refine hclamp.trans ?_
  have hbound := Int.natAbs_fdiv_le_natAbs (start - stop) step
  have hpositive : ofInt (-((start - stop).fdiv step)) > 0 ↔ 0 < -((start - stop).fdiv step) :=
    Number.ofInt_lt_iff (a := 0) (by decide) (by omega)
  unfold intLength
  -- Both lengths are 0 where the steps lead away from `stop`.
  by_cases h : 0 < -((start - stop).fdiv step)
  · rw [if_pos (hpositive.2 h), Int.toNat_of_nonneg h.le]
  · rw [if_neg (mt hpositive.1 h), Int.toNat_of_nonpos (by omega)]
    rfl

/-- A progression of integers is too long if it is so over the integers. -/
theorem span_gt_iff {p : Progression} (hstart : IsInteger start p.start)
    (hstop : IsInteger stop p.stop) (hstep : IsInteger step p.step) (hne : step ≠ 0) :
    p.span > Number.ofNat maxRangeLength ↔ maxRangeLength < intLength start stop step := by
  have hlength : (intLength start stop step : Int).natAbs ≤ 2 ^ 53 :=
    (intLength_le start stop step).trans (hstop.natAbs_sub_le hstart)
  rw [span_eq hstart hstop hstep hne]
  exact (Number.ofInt_lt_iff (a := maxRangeLength) (by decide) hlength).trans Nat.cast_lt

theorem length_eq {p : Progression} (hstart : IsInteger start p.start)
    (hstop : IsInteger stop p.stop) (hstep : IsInteger step p.step) (hne : step ≠ 0) :
    p.length = intLength start stop step := by
  have hlength : (intLength start stop step : Int).natAbs ≤ 2 ^ 53 :=
    (intLength_le start stop step).trans (hstop.natAbs_sub_le hstart)
  rw [Progression.length, span_eq hstart hstop hstep hne, Number.toUInt64_ofInt hlength,
    Int.toNat_natCast]

/-- The items of a progression of integers are those over the integers. -/
theorem same_item {p : Progression} (hstart : IsInteger start p.start)
    (hstop : IsInteger stop p.stop) (hstep : IsInteger step p.step) (hne : step ≠ 0) {i : Nat}
    (hi : i < intLength start stop step) :
    Same (p.start + p.step * Number.ofNat i) (ofInt (start + step * i)) := by
  have hdistance := hstop.natAbs_sub_le hstart
  have hi' : (i : Int).natAbs < 2 ^ 53 := by
    have h := intLength_le start stop step
    omega
  have hproduct : (step * i).natAbs < 2 ^ 53 := (natAbs_mul_lt hne hi).trans_le hdistance
  exact (hstart.2.add ((hstep.2.mul (.refl _)).trans
    (Number.same_ofInt_mul hstep.natAbs_lt hi' hproduct))).trans
      (Number.same_ofInt_add hstart.natAbs_lt hproduct)

/-- The items of a range are produced one by one. -/
theorem following_items {p : Progression} (hstart : IsInteger start p.start)
    (hstop : IsInteger stop p.stop) (hstep : IsInteger step p.step) (hne : step ≠ 0) :
    following.Rel IntValue.Represents
      (do return .list (← (List.range (intLength start stop step)).mapM' fun i : Nat ↦
        .produce (start + step * i)))
      (pure (.list ((List.range (intLength start stop step)).map fun i ↦
        .number (p.start + p.step * Number.ofNat i)))) := by
  have hitems : following.Rel (List.Forall₂ IntValue.Represents)
      ((List.range (intLength start stop step)).mapM' fun i : Nat ↦ .produce (start + step * i))
      ((List.range (intLength start stop step)).mapM fun i ↦
        (pure (.number (p.start + p.step * Number.ofNat i)) : EvalM Value)) := by
    have hself : List.Forall₂ (fun i j ↦ i = j ∧ i < intLength start stop step)
        (List.range (intLength start stop step)) (List.range (intLength start stop step)) :=
      List.forall₂_same.2 fun i hi ↦ ⟨rfl, List.mem_range.1 hi⟩
    refine Lifting.mapM hself ?_
    rintro i _ ⟨rfl, hi⟩
    exact following_produce fun _ ↦ same_item hstart hstop hstep hne hi
  rw [List.mapM_pure] at hitems
  exact following.bind hitems fun vs ws h ↦ following.pure (.list (IntValue.representsAll_iff.2 h))

theorem following_build {p : Progression} (hstart : IsInteger start p.start)
    (hstop : IsInteger stop p.stop) (hstep : IsInteger step p.step) :
    following.Rel IntValue.Represents (IntValue.progression start stop step) p.build := by
  unfold IntValue.progression Progression.build
  have hzero : (p.step == 0) = decide (step = 0) := hstep.beq_eq .zero
  rw [hzero]
  by_cases hne : step = 0
  · rw [if_pos hne, if_pos (decide_eq_true hne)]
    exact following_throw rfl
  have hlong := span_gt_iff hstart hstop hstep hne
  rw [if_neg hne, decide_eq_false hne, if_neg Bool.false_ne_true]
  by_cases htooLong : maxRangeLength < intLength start stop step
  · rw [if_pos htooLong, if_pos (hlong.2 htooLong)]
    exact following_throw rfl
  rw [if_neg htooLong, if_neg (mt hlong.1 htooLong), Progression.items,
    length_eq hstart hstop hstep hne]
  exact following.bind (following_pay rfl) fun _ _ _ ↦ following_items hstart hstop hstep hne

theorem following_rangeArgument {v : IntValue} {w : Value} (h : v.Represents w) :
    following.Rel IsInteger (.ofOption .type v.toInt?) (liftM (rangeArgument w)) := by
  have hfault : ExprErrorClass.type = (EvalFault.rangeNeedsIntegers w).errorClass := rfl
  have hnumber := h.toInt?
  refine following_ofOption hnumber (fun x hx ↦ ?_) (fun hx ↦ ?_) hfault
  · rw [hx] at hnumber
    have hwhole : Number.isWhole x := by
      revert hnumber
      generalize v.toInt? = n
      rintro (hn | _)
      exact hn.isWhole
    rw [rangeArgument, hx]
    exact if_pos hwhole
  · rw [rangeArgument, hx]

theorem following_rangeOf {vs : List IntValue} {ws : List Value}
    (h : List.Forall₂ IntValue.Represents vs ws) :
    following.Rel IntValue.Represents (IntValue.range vs) (rangeOf ws) := by
  refine following.bind (Lifting.mapM h fun v w hv ↦ following_rangeArgument hv)
    fun ns xs hxs ↦ ?_
  rcases hxs with _ | ⟨hx, _ | ⟨hy, _ | ⟨hz, _ | _⟩⟩⟩
  · exact following_throw rfl
  · exact following_build .zero hx .one
  · exact following_build hx hy .one
  · exact following_build hx hy hz
  · exact following_throw rfl

end Ranges

/-! ### Expressions -/

/-- The board's numbers are whole. -/
structure Bindings.IsWhole (b : Bindings) : Prop where
  x : Number.isWhole b.x
  y : Number.isWhole b.y
  w : Number.isWhole b.w
  h : Number.isWhole b.h

/-- A node of the language of integers: no literal but of a whole number, no `any`, and no operator
that leaves the integers. -/
def Expr.IsIntegral : Expr → Prop
  | .number value => Number.isWhole value
  | .name word => word ≠ "any"
  | .binary op _ _ => op ≠ .div ∧ op ≠ .pow
  | _ => True

theorem following_toInt {x : Float} (hx : Number.isWhole x) :
    following.Rel IntValue.Represents (.produce (Number.toInt x)) (pure (.number x)) :=
  following_produce fun h ↦ Number.same_ofInt_toInt hx (h.trans (by decide))

theorem following_find {b : Bindings} (hb : b.IsWhole) {word : String} (hword : word ≠ "any") :
    following.Rel IntValue.Represents (b.findInt word) (liftM (b.find word)) := by
  unfold Bindings.findInt Bindings.find
  rw [if_neg hword]
  split
  · exact following_toInt hb.x
  split
  · exact following_toInt hb.y
  split
  · exact following_toInt hb.w
  split
  · exact following_toInt hb.h
  · exact following_error rfl

theorem simulates_integers {b : Bindings} (hb : b.IsWhole) :
    (Semantics.integers b).Simulates b following IntValue.Represents Expr.IsIntegral where
  number := following_toInt
  name := following_find hb
  unary op _ _ := following_unary op
  binary := following_binary
  holds op _ _ _ _ := following_holds op
  range := following_rangeOf
  items {v w} h := by
    have hfault : ExprErrorClass.type = (EvalFault.notIterable w.kind).errorClass := rfl
    refine following_ofOption h.items? (fun x hx ↦ ?_) (fun hx ↦ ?_) hfault
    · rw [iterate, hx]
    · rw [iterate, hx]
  pay h := following_pay h.weight_eq
  isTruthy h := h.isTruthy_eq
  bool := .bool
  tuple h := .tuple (IntValue.representsAll_iff.2 h)
  list h := .list (IntValue.representsAll_iff.2 h)

/-- On integers an evaluation computes exactly: it agrees with the evaluation over the unbounded
integers that has the same budget.

Assumes: the board's numbers and the literals are whole, the expression has no `/`, no `**` and no
`any`, and the run over the integers produces no number beyond `2 ^ 52`. -/
theorem exact_on_integers (e : Expr) {b : Bindings} (hb : b.IsWhole)
    (he : ∀ node, e.Contains node → node.IsIntegral) (budget : Nat)
    (hsmall : ∀ n ∈ (e.onIntegers b budget).produced, n.natAbs ≤ 2 ^ 52) :
    (e.onIntegers b budget).Agrees IntValue.Represents ((e.eval (.ofBoard b)).run budget) := by
  have hlocals : RelatedLocals IntValue.Represents [] (Env.ofBoard b).locals := .nil
  exact (simulates_integers hb).interpret e he rfl hlocals budget hsmall

/-- `x % 3` for `x = -7` produces -7, 3 and 2. -/
theorem exact_on_integers_remainder :
    ((Expr.binary .mod (.name "x") (.number 3)).onIntegers ⟨-7, 0, 8, 8, false⟩ 5).produced =
        [-7, 3, 2] ∧
      ((Expr.binary .mod (.name "x") (.number 3)).onIntegers ⟨-7, 0, 8, 8, false⟩ 5).Agrees
        IntValue.Represents
        (((Expr.binary .mod (.name "x") (.number 3)).eval
          (.ofBoard ⟨-7, 0, 8, 8, false⟩)).run 5) := by
  have hproduced : ((Expr.binary .mod (.name "x") (.number 3)).onIntegers
      ⟨-7, 0, 8, 8, false⟩ 5).produced = [-7, 3, 2] := by decide +kernel
  refine ⟨hproduced, exact_on_integers _ (by constructor <;> decide) ?_ 5 ?_⟩
  · intro node hnode
    rcases Expr.contains_iff.1 hnode with rfl | ⟨c, hc, hnode⟩
    · exact ⟨by decide, by decide⟩
    rcases Expr.contains_iff.1 hnode with rfl | ⟨c', hc', -⟩
    · rcases List.mem_pair.1 hc with rfl | rfl
      · exact (by decide : "x" ≠ "any")
      · exact (by decide : Number.isWhole 3)
    · rcases List.mem_pair.1 hc with rfl | rfl <;> cases hc'
  · rw [hproduced]
    decide

end Waypoints
