import Mathlib.Order.Interval.Set.Nat
import Waypoints.Proofs.Evaluation.Exactness
import Waypoints.Proofs.Evaluation.Unlimited
/-!
# Ranges as progressions

For integers of at most `2 ^ 52` in magnitude `range(start, stop, step)` is the integer progression
from `start` in steps of `step`, as far as it is strictly before `stop` in the direction of `step`
(`indexesBefore`). It has as many items and pays for so many, or it is too long, or the budget does
not suffice; and what is no integer is refused (`range_is_progression`).
-/

set_option autoImplicit false
set_option relaxedAutoImplicit false

namespace Waypoints

/-! ### Integers among the values -/

/-- The number is the integer `n`. -/
def Number.Denotes (x : Float) (n : Int) : Prop :=
  x.isFinite ∧ toRat x = n

namespace Number.Denotes

variable {x : Float} {n : Int}

theorem isInteger (h : Denotes x n) (hle : n.natAbs ≤ maxInteger) : IsInteger n x :=
  ⟨hle, same_ofInt_of_toRat_eq h.1 (hle.trans (by decide)) h.2⟩

theorem of_same (h : Same x (ofInt n)) (hle : n.natAbs ≤ 2 ^ 53) : Denotes x n :=
  ⟨h.isFinite_eq.trans (isFinite_ofInt_of_le hle), h.toRat_eq.trans (toRat_ofInt hle)⟩

end Number.Denotes

/-- The value is the integer `n` where a number is needed: a truth value counts as 0 or 1. -/
def Value.CountsAs (v : Value) (n : Int) : Prop :=
  ∃ x, v.toNumber? = some x ∧ Number.Denotes x n

/-- An integer is taken as an argument. -/
theorem Value.CountsAs.rangeArgument {v : Value} {n : Int} (h : v.CountsAs n) :
    ∃ x, rangeArgument v = .ok x ∧ Number.Denotes x n := by
  obtain ⟨x, hx, hn⟩ := h
  refine ⟨x, ?_, hn⟩
  rw [Waypoints.rangeArgument, hx]
  exact if_pos (Number.isWhole_iff.2 ⟨hn.1, n, hn.2⟩)

/-- What is no integer is refused as an argument. -/
theorem rangeArgument_of_not_countsAs {v : Value} (h : ∀ n, ¬v.CountsAs n) :
    rangeArgument v = .error (.rangeNeedsIntegers v) := by
  rw [rangeArgument]
  cases hx : v.toNumber? with
  | none => rfl
  | some x =>
    refine if_neg fun hwhole ↦ ?_
    obtain ⟨hfinite, n, hn⟩ := Number.isWhole_iff.1 hwhole
    exact h n ⟨x, hx, hfinite, hn⟩

/-! ### Progressions over the integers -/

/-- The steps from `start` that stay strictly before `stop` in the direction of `step`. -/
def indexesBefore (start stop step : Int) : Set Nat :=
  {i | if 0 < step then start + i * step < stop else stop < start + i * step}

theorem indexesBefore_eq {start stop step : Int} (hstep : step ≠ 0) :
    indexesBefore start stop step = Set.Iio (intLength start stop step) := by
  ext i
  rw [indexesBefore, Set.mem_ofPred_eq, Set.mem_Iio, mul_comm]
  split
  · next hpos => exact (lt_intLength_iff_of_pos hpos).symm
  · next hpos => exact (lt_intLength_iff_of_neg (by omega)).symm

theorem ncard_indexesBefore {start stop step : Int} (hstep : step ≠ 0) :
    (indexesBefore start stop step).ncard = intLength start stop step := by
  rw [indexesBefore_eq hstep, Set.ncard_Iio_nat]

/-- The start, the stop and the step that the arguments of a range describe. The start is 0 and the
step 1 where they are left out. -/
inductive Describes : List Value → Int → Int → Int → Prop
  | one {v : Value} {stop : Int} : v.CountsAs stop → Describes [v] 0 stop 1
  | two {v w : Value} {start stop : Int} :
      v.CountsAs start → w.CountsAs stop → Describes [v, w] start stop 1
  | three {v w u : Value} {start stop step : Int} :
      v.CountsAs start → w.CountsAs stop → u.CountsAs step → Describes [v, w, u] start stop step

theorem Describes.exists_progression {vs : List Value} {start stop step : Int}
    (h : Describes vs start stop step) (hstart : start.natAbs ≤ maxInteger)
    (hstop : stop.natAbs ≤ maxInteger) (hstep : step.natAbs ≤ maxInteger) :
    ∃ xs p, List.Forall₂ (fun v x ↦ rangeArgument v = .ok x) vs xs ∧
      Progression.ofArguments? xs = some p ∧ Number.IsInteger start p.start ∧
      Number.IsInteger stop p.stop ∧ Number.IsInteger step p.step := by
  cases h with
  | one hv =>
    obtain ⟨x, hx, hn⟩ := hv.rangeArgument
    exact ⟨[x], ⟨0, x, 1⟩, .cons hx .nil, rfl, .zero, hn.isInteger hstop, .one⟩
  | two hv hw =>
    obtain ⟨x, hx, hn⟩ := hv.rangeArgument
    obtain ⟨y, hy, hm⟩ := hw.rangeArgument
    exact ⟨[x, y], ⟨x, y, 1⟩, .cons hx (.cons hy .nil), rfl, hn.isInteger hstart,
      hm.isInteger hstop, .one⟩
  | three hv hw hu =>
    obtain ⟨x, hx, hn⟩ := hv.rangeArgument
    obtain ⟨y, hy, hm⟩ := hw.rangeArgument
    obtain ⟨z, hz, hk⟩ := hu.rangeArgument
    exact ⟨[x, y, z], ⟨x, y, z⟩, .cons hx (.cons hy (.cons hz .nil)), rfl, hn.isInteger hstart,
      hm.isInteger hstop, hk.isInteger hstep⟩

/-! ### Ranges -/

section Build

variable {p : Progression} {start stop step : Int}

/-- The items of a progression are the integers of the progression. -/
theorem denotes_items (hstart : Number.IsInteger start p.start)
    (hstop : Number.IsInteger stop p.stop) (hstep : Number.IsInteger step p.step)
    (hne : step ≠ 0) :
    List.Forall₂ (fun (i : Nat) item ↦ ∃ x, item = .number x ∧
      Number.Denotes x (start + i * step)) (List.range (intLength start stop step)) p.items := by
  rw [Progression.items, length_eq hstart hstop hstep hne, List.forall₂_map_right_iff,
    List.forall₂_same]
  intro i hi
  refine ⟨_, rfl, ?_⟩
  rw [mul_comm]
  have hi := List.mem_range.1 hi
  refine .of_same (same_item hstart hstop hstep hne hi) ?_
  -- The sum of `start` and a distance could be too great, but an item does not pass `stop`.
  have hbetween := item_between hne hi
  have hleast := hstart.natAbs_le
  have hgreatest := hstop.natAbs_le
  omega

/-- A progression is refused if it is too long or cannot be paid for, and else gives its items. -/
theorem build_eq (hstart : Number.IsInteger start p.start)
    (hstop : Number.IsInteger stop p.stop) (hstep : Number.IsInteger step p.step)
    (hne : step ≠ 0) (budget : Nat) :
    p.build budget =
      if maxRangeLength < intLength start stop step then
        .error (.rangeTooLarge (intLength start stop step))
      else if intLength start stop step ≤ budget then
        .ok (.list p.items, budget - intLength start stop step)
      else .error .tooManyValues := by
  have hzero : (p.step == 0) = false := (hstep.beq_eq .zero).trans (decide_eq_false hne)
  have hlong := span_gt_iff hstart hstop hstep hne
  rw [Progression.build, hzero, if_neg Bool.false_ne_true, length_eq hstart hstop hstep hne]
  by_cases htooLong : maxRangeLength < intLength start stop step
  · rw [if_pos htooLong, if_pos (hlong.2 htooLong)]
    rfl
  rw [if_neg htooLong, if_neg (mt hlong.1 htooLong)]
  exact costs_spend_return _ (Value.list p.items) budget

end Build

theorem mapM_rangeArgument {vs : List Value} {xs : List Float}
    (h : List.Forall₂ (fun v x ↦ rangeArgument v = .ok x) vs xs) :
    (vs.mapM fun v ↦ (liftM (rangeArgument v) : EvalM Float)) = pure xs := by
  induction h with
  | nil => rfl
  | cons hx _ ih =>
    rw [List.mapM_cons, hx, ih]
    rfl

/-- Arguments that describe a progression have its items as their value. -/
theorem rangeOf_eq {vs : List Value} {xs : List Float} {p : Progression}
    (h : List.Forall₂ (fun v x ↦ rangeArgument v = .ok x) vs xs)
    (hp : Progression.ofArguments? xs = some p) : rangeOf vs = p.build := by
  rw [rangeOf, mapM_rangeArgument h, pure_bind, hp]

/-- Of the arguments that are no integers the first one is refused. -/
theorem mapM_rangeArgument_eq_error {vs : List Value} {v : Value} (hv : v ∈ vs)
    (h : ∀ n, ¬v.CountsAs n) : ∃ before w after, vs = before ++ w :: after ∧
      (∀ u ∈ before, ∃ n, u.CountsAs n) ∧ (∀ n, ¬w.CountsAs n) ∧
      (vs.mapM fun v ↦ (liftM (rangeArgument v) : EvalM Float)) =
        throw (.rangeNeedsIntegers w) := by
  induction vs with
  | nil => cases hv
  | cons u us ih =>
    rw [List.mapM_cons]
    by_cases hu : ∀ n, ¬u.CountsAs n
    · refine ⟨[], u, us, rfl, nofun, hu, ?_⟩
      rw [rangeArgument_of_not_countsAs hu]
      rfl
    · have hus : v ∈ us := (List.mem_cons.1 hv).resolve_left (by rintro rfl; exact hu h)
      obtain ⟨before, w, after, rfl, hbefore, hw, hmapM⟩ := ih hus
      obtain ⟨n, hn⟩ := not_forall_not.1 hu
      obtain ⟨x, hx, -⟩ := hn.rangeArgument
      refine ⟨u :: before, w, after, rfl, List.forall_mem_cons.2 ⟨⟨n, hn⟩, hbefore⟩, hw, ?_⟩
      rw [hx, hmapM]
      rfl

/-- A range over integers is their progression. Let `n` be the number of steps from `start` that
stay strictly before `stop` in the direction of `step`. Up to 4096 the `n` items
`start`, `start + step` and so on are the value, and `n` values are paid for; a budget of less does
not suffice. A longer range is refused with its length. Of arguments that are no integers, as
fractions, infinities, NaN and sequences are none, the first one is refused.

Assumes: the arguments have values, and their evaluation leaves `left` of the budget. -/
theorem range_is_progression {args : List Expr} {env : Env} {budget left : Nat} {vs : List Value}
    (hargs : (Expr.evalAll args env).run budget = .ok (vs, left)) :
    (∀ start stop step : Int, Describes vs start stop step → step ≠ 0 → start.natAbs ≤ 2 ^ 52 →
      stop.natAbs ≤ 2 ^ 52 → step.natAbs ≤ 2 ^ 52 → (indexesBefore start stop step).Finite ∧
      ∀ n, (indexesBefore start stop step).ncard = n →
        (n ≤ 4096 → n ≤ left → ∃ items,
          ((Expr.range args).eval env).run budget = .ok (.list items, left - n) ∧
          List.Forall₂ (fun (i : Nat) item ↦ ∃ x, item = .number x ∧
            Number.Denotes x (start + i * step)) (List.range n) items) ∧
        (n ≤ 4096 → left < n →
          ((Expr.range args).eval env).run budget = .error .tooManyValues) ∧
        (4096 < n →
          ((Expr.range args).eval env).run budget = .error (.rangeTooLarge n))) ∧
    ∀ v ∈ vs, (∀ n, ¬v.CountsAs n) → ∃ before w after, vs = before ++ w :: after ∧
      (∀ u ∈ before, ∃ n, u.CountsAs n) ∧ (∀ n, ¬w.CountsAs n) ∧
      ((Expr.range args).eval env).run budget = .error (.rangeNeedsIntegers w) ∧
      (EvalFault.rangeNeedsIntegers w).errorClass = .type := by
  have hrun : ((Expr.range args).eval env).run budget = rangeOf vs left := by
    rw [Expr.eval]
    exact StateT.bind_of_ok hargs
  rw [hrun]
  refine ⟨fun start stop step hvs hne hstart hstop hstep ↦ ?_, fun v hv hno ↦ ?_⟩
  · obtain ⟨xs, p, hxs, hp, hstart, hstop, hstep⟩ := hvs.exists_progression hstart hstop hstep
    refine ⟨indexesBefore_eq hne ▸ Set.finite_Iio _, ?_⟩
    rintro n rfl
    rw [ncard_indexesBefore hne, rangeOf_eq hxs hp, build_eq hstart hstop hstep hne,
      show maxRangeLength = 4096 from rfl]
    refine ⟨fun hshort hpaid ↦ ⟨p.items, ?_, denotes_items hstart hstop hstep hne⟩,
      fun hshort hunpaid ↦ ?_, fun hlong ↦ if_pos hlong⟩
    · rw [if_neg (Nat.not_lt.2 hshort), if_pos hpaid]
    · rw [if_neg (Nat.not_lt.2 hshort), if_neg (Nat.not_le.2 hunpaid)]
  · obtain ⟨before, w, after, hvs, hbefore, hw, hmapM⟩ := mapM_rangeArgument_eq_error hv hno
    refine ⟨before, w, after, hvs, hbefore, hw, ?_, rfl⟩
    rw [rangeOf, hmapM]
    rfl

/-- `range(3, -2, -2)` has the three items 3, 1 and -1, `range(5000)` is too long, and the argument
of `range([])` is refused. -/
theorem range_is_progression_downwards :
    (∃ items, ((Expr.range [.number 3, .unary .minus (.number 2),
        .unary .minus (.number 2)]).eval (.ofBoard ⟨0, 0, 8, 8, false⟩)).run 5 =
          .ok (.list items, 5 - 3) ∧
        List.Forall₂ (fun (i : Nat) item ↦ ∃ x, item = .number x ∧
          Number.Denotes x (3 + i * -2)) (List.range 3) items) ∧
      ((Expr.range [.number 5000]).eval (.ofBoard ⟨0, 0, 8, 8, false⟩)).run 5 =
        .error (.rangeTooLarge 5000) ∧
      ((Expr.range [.list []]).eval (.ofBoard ⟨0, 0, 8, 8, false⟩)).run 5 =
        .error (.rangeNeedsIntegers (.list [])) := by
  have hdown : Describes [.number 3, .number (-2), .number (-2)] 3 (-2) (-2) :=
    .three ⟨3, rfl, .of_same (.of_eq rfl) (by decide)⟩ ⟨-2, rfl, .of_same (.of_eq rfl) (by decide)⟩
      ⟨-2, rfl, .of_same (.of_eq rfl) (by decide)⟩
  have hlong : Describes [.number 5000] 0 5000 1 :=
    .one ⟨5000, rfl, .of_same (.of_eq rfl) (by decide)⟩
  have hlist : ∀ n, ¬(Value.list []).CountsAs n := fun n ⟨_, hx, _⟩ ↦ nomatch hx
  obtain ⟨before, w, after, hvs, -, -, hrefused, -⟩ := (@range_is_progression [.list []]
    (.ofBoard ⟨0, 0, 8, 8, false⟩) 5 5 [.list []] rfl).2 _ (.head []) hlist
  obtain rfl : w = .list [] := by
    have hw : w ∈ [Value.list []] := hvs ▸ List.mem_append_right before (.head after)
    exact List.mem_singleton.1 hw
  exact ⟨(((range_is_progression rfl).1 3 (-2) (-2) hdown (by decide) (by decide) (by decide)
      (by decide)).2 3 (ncard_indexesBefore (by decide))).1 (by decide) (by decide),
    (((range_is_progression rfl).1 0 5000 1 hlong (by decide) (by decide) (by decide)
      (by decide)).2 5000 (ncard_indexesBefore (by decide))).2.2 (by decide),
    hrefused⟩

end Waypoints
