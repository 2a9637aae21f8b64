import Waypoints.Expr.Evaluation
import Waypoints.Proofs.Evaluation.Related
import Waypoints.Proofs.Number.SignOfZero
/-!
# Equality of values

`Value.Equal` is the equality of the expression language as a relation: numbers and truth values are
equal if their numbers are, and sequences of one kind if their items are. It is symmetric and
transitive, and only a NaN keeps a value from being equal to itself. No condition and no comparison
tells equal values apart (`Value.Equal.interchangeable`); `equality_sound` puts this together.
-/

set_option autoImplicit false
set_option relaxedAutoImplicit false

namespace Waypoints

open Number (Same)
open Float.Model (UnpackedFloat)

/-! ### Equal numbers -/

section Numbers

variable {x y z : Float}

/-- Numbers are equal if they are the same and no wildcards. -/
theorem Number.beq_iff : (x == y) = true ↔ Same x y ∧ x.isNaN = false := by
  constructor
  · intro h
    refine ⟨.of_beq h, Bool.eq_false_iff.2 fun hnan ↦ ?_⟩
    have hform := (UnpackedFloat.beq_iff_ne_notANumber_and_eq _ _).1
      (show x.toModel.unpack.beq y.toModel.unpack = true from h)
    exact hform.1 (UnpackedFloat.isNaN_iff.1 hnan)
  · rintro ⟨hsame, hnan⟩
    rw [Same, Point.sameComponent, hnan, Bool.false_and, Bool.or_false] at hsame
    exact hsame

theorem Number.beq_symm (h : x == y) : y == x := by
  obtain ⟨hsame, hnan⟩ := beq_iff.1 h
  exact beq_iff.2 ⟨hsame.symm, hsame.isNaN_eq ▸ hnan⟩

theorem Number.beq_trans (h : x == y) (h' : y == z) : x == z := by
  obtain ⟨hsame, hnan⟩ := beq_iff.1 h
  exact beq_iff.2 ⟨hsame.trans (Same.of_beq h'), hnan⟩

end Numbers

/-! ### Equality as a relation -/

mutual

/-- Equal numbers, or sequences of one kind with equal items. -/
inductive Value.Equal : Value → Value → Prop
  | number {v w : Value} {x y : Float} :
      v.toNumber? = some x → w.toNumber? = some y → x == y → Value.Equal v w
  | tuple {as bs : List Value} : Value.EqualAll as bs → Value.Equal (.tuple as) (.tuple bs)
  | list {as bs : List Value} : Value.EqualAll as bs → Value.Equal (.list as) (.list bs)

/-- Rows of values that are equal one by one. -/
inductive Value.EqualAll : List Value → List Value → Prop
  | nil : Value.EqualAll [] []
  | cons {a b : Value} {as bs : List Value} :
      Value.Equal a b → Value.EqualAll as bs → Value.EqualAll (a :: as) (b :: bs)

end

namespace Value

variable {u v w : Value}

mutual

theorem equal_of_equals : (v w : Value) → v.equals w → v.Equal w
  | .number a, w, h => by
    rw [equals, Option.any_eq_true] at h
    obtain ⟨y, hy, h⟩ := h
    exact .number rfl hy h
  | .bool a, w, h => by
    rw [equals, Option.any_eq_true] at h
    obtain ⟨y, hy, h⟩ := h
    exact .number rfl hy h
  | .tuple as, .tuple bs, h => .tuple (equalAll_of_equalsAll as bs h)
  | .list as, .list bs, h => .list (equalAll_of_equalsAll as bs h)

theorem equalAll_of_equalsAll : (as bs : List Value) → equalsAll as bs → EqualAll as bs
  | [], [], _ => .nil
  | a :: as, b :: bs, h => by
    rw [equalsAll, Bool.and_eq_true] at h
    exact .cons (equal_of_equals a b h.1) (equalAll_of_equalsAll as bs h.2)

end

theorem equals_of_toNumber? {x y : Float} (hv : v.toNumber? = some x) (hw : w.toNumber? = some y) :
    v.equals w = (x == y) := by
  cases v with
  | number a =>
    obtain rfl := Option.some.inj hv
    rw [equals, hw]
    rfl
  | bool flag =>
    obtain rfl := Option.some.inj hv
    rw [equals, hw]
    rfl
  | tuple as => cases hv
  | list as => cases hv

mutual

theorem Equal.equals {v w : Value} : v.Equal w → v.equals w
  | .number hv hw h => by rwa [equals_of_toNumber? hv hw]
  | .tuple h => h.equalsAll
  | .list h => h.equalsAll

theorem EqualAll.equalsAll {as bs : List Value} : EqualAll as bs → equalsAll as bs
  | .nil => rfl
  | .cons h hall => Bool.and_eq_true_iff.2 ⟨h.equals, hall.equalsAll⟩

end

theorem equals_iff : v.equals w ↔ v.Equal w :=
  ⟨equal_of_equals v w, Equal.equals⟩

mutual

theorem Equal.symm {v w : Value} : v.Equal w → w.Equal v
  | .number hv hw h => .number hw hv (Number.beq_symm h)
  | .tuple h => .tuple h.symm
  | .list h => .list h.symm

theorem EqualAll.symm {as bs : List Value} : EqualAll as bs → EqualAll bs as
  | .nil => .nil
  | .cons h hall => .cons h.symm hall.symm

end

mutual

theorem Equal.trans {u v w : Value} : u.Equal v → v.Equal w → u.Equal w
  | .number hu hv h, .number hv' hw h' => by
    obtain rfl := Option.some.inj (hv.symm.trans hv')
    exact .number hu hw (Number.beq_trans h h')
  | .number _ hv _, .tuple _ => by cases hv
  | .number _ hv _, .list _ => by cases hv
  | .tuple _, .number hv _ _ => by cases hv
  | .list _, .number hv _ _ => by cases hv
  | .tuple h, .tuple h' => .tuple (h.trans h')
  | .list h, .list h' => .list (h.trans h')

theorem EqualAll.trans {as bs cs : List Value} :
    EqualAll as bs → EqualAll bs cs → EqualAll as cs
  | .nil, .nil => .nil
  | .cons h hall, .cons h' hall' => .cons (h.trans h') (hall.trans hall')

end

mutual

/-- Only a NaN keeps a value from being equal to itself. -/
theorem equal_self_iff : (v : Value) → (v.Equal v ↔ ∀ x ∈ v.numbers, x.isNaN = false)
  | .number x => by
    rw [numbers, List.forall_mem_singleton, ← equals_iff, equals_of_toNumber? rfl rfl,
      Number.beq_iff]
    exact and_iff_right (.refl x)
  | .bool flag => by
    refine iff_of_true (equals_iff.1 ?_) (List.forall_mem_nil _)
    cases flag <;> rfl
  | .tuple items => by
    rw [numbers, ← equalAll_self_iff items]
    constructor
    · rintro (⟨hv, -, -⟩ | h | -)
      · cases hv
      · exact h
    · exact .tuple
  | .list items => by
    rw [numbers, ← equalAll_self_iff items]
    constructor
    · rintro (⟨hv, -, -⟩ | - | h)
      · cases hv
      · exact h
    · exact .list

theorem equalAll_self_iff : (items : List Value) →
    (EqualAll items items ↔ ∀ x ∈ allNumbers items, x.isNaN = false)
  | [] => iff_of_true .nil (List.forall_mem_nil _)
  | v :: items => by
    rw [allNumbers, List.forall_mem_append, ← equal_self_iff v, ← equalAll_self_iff items]
    constructor
    · rintro (- | ⟨h, hall⟩)
      exact ⟨h, hall⟩
    · rintro ⟨h, hall⟩
      exact .cons h hall

end

/-! ### Equal values are interchangeable -/

/-- The same answer, or a type error in both cases. -/
abbrev SameAnswer : Except EvalFault Bool → Except EvalFault Bool → Prop :=
  Except.Agrees (fun _ ↦ False) (fun e e' ↦ e.errorClass = .type ∧ e'.errorClass = .type) Eq

/-- Values that no condition tells apart and no comparison with any value, on either side. -/
structure Interchangeable (v w : Value) : Prop where
  isTruthy : v.isTruthy = w.isTruthy
  left (op : CompareOp) (u : Value) : SameAnswer (op.holds v u) (op.holds w u)
  right (op : CompareOp) (u : Value) : SameAnswer (op.holds u v) (op.holds u w)

theorem isTruthy_of_toNumber? {x : Float} (h : v.toNumber? = some x) : v.isTruthy = (x != 0) := by
  cases v with
  | number y =>
    obtain rfl := Option.some.inj h
    rfl
  | bool flag =>
    obtain rfl := Option.some.inj h
    cases flag <;> rfl
  | tuple items => cases h
  | list items => cases h

theorem EqualAll.isEmpty_eq {as bs : List Value} (h : EqualAll as bs) :
    as.isEmpty = bs.isEmpty := by
  cases h <;> rfl

theorem Equal.isTruthy_eq (h : v.Equal w) : v.isTruthy = w.isTruthy := by
  cases h with
  | number hv hw h =>
    rw [isTruthy_of_toNumber? hv, isTruthy_of_toNumber? hw]
    exact congrArg not ((Same.of_beq h).beq_eq (.refl 0))
  | tuple h => exact congrArg not h.isEmpty_eq
  | list h => exact congrArg not h.isEmpty_eq

/-- Equal values have the same number, or both have none. -/
theorem Equal.toNumber? (h : v.Equal w) : Option.Rel Same v.toNumber? w.toNumber? := by
  cases h with
  | number hv hw h =>
    rw [hv, hw]
    exact .some (.of_beq h)
  | tuple => exact .none
  | list => exact .none

/-- What is equal to one of two equal values is equal to the other. -/
theorem Equal.equals_eq (h : v.Equal w) (u : Value) : v.equals u = w.equals u := by
  rw [Bool.eq_iff_iff, equals_iff, equals_iff]
  exact ⟨h.symm.trans, h.trans⟩

theorem equals_comm (v w : Value) : v.equals w = w.equals v := by
  rw [Bool.eq_iff_iff, equals_iff, equals_iff]
  exact ⟨Equal.symm, Equal.symm⟩

/-- An order of numbers that does not tell the sign of a zero does not tell equal values apart. -/
theorem sameAnswer_ordered {before : Float → Float → Bool} {u u' : Value}
    (hbefore : ∀ x x' y y', Same x x' → Same y y' → before x y = before x' y')
    (hv : Option.Rel Same v.toNumber? w.toNumber?)
    (hu : Option.Rel Same u.toNumber? u'.toNumber?) :
    SameAnswer (ordered before v u) (ordered before w u') := by
  unfold ordered
  revert hv hu
  generalize v.toNumber? = x
  generalize w.toNumber? = x'
  generalize u.toNumber? = y
  generalize u'.toNumber? = y'
  rintro (hx | _) (hy | _)
  · exact hbefore _ _ _ _ hx hy
  · exact .inr ⟨rfl, rfl⟩
  · exact .inr ⟨rfl, rfl⟩
  · exact .inr ⟨rfl, rfl⟩

/-- A comparison does not tell operands of the same numbers apart, given that equality does not. -/
theorem sameAnswer_holds (op : CompareOp) {u u' : Value} (hequals : v.equals u = w.equals u')
    (hv : Option.Rel Same v.toNumber? w.toNumber?)
    (hu : Option.Rel Same u.toNumber? u'.toNumber?) :
    SameAnswer (op.holds v u) (op.holds w u') := by
  have hlt {x x' y y' : Float} (hx : Same x x') (hy : Same y y') :
      decide (x < y) = decide (x' < y') := decide_eq_decide.2 (hx.lt_iff hy)
  have hle {x x' y y' : Float} (hx : Same x x') (hy : Same y y') :
      decide (x ≤ y) = decide (x' ≤ y') := decide_eq_decide.2 (hx.le_iff hy)
  cases op with
  | eq => exact hequals
  | ne => exact congrArg not hequals
  | lt => exact sameAnswer_ordered (fun _ _ _ _ hx hy ↦ hlt hx hy) hv hu
  | le => exact sameAnswer_ordered (fun _ _ _ _ hx hy ↦ hle hx hy) hv hu
  | gt => exact sameAnswer_ordered (fun _ _ _ _ hx hy ↦ hlt hy hx) hv hu
  | ge => exact sameAnswer_ordered (fun _ _ _ _ hx hy ↦ hle hy hx) hv hu

theorem Equal.interchangeable (h : v.Equal w) : v.Interchangeable w := by
  have hself (u : Value) : Option.Rel Same u.toNumber? u.toNumber? := by
    cases u.toNumber? with
    | none => exact .none
    | some x => exact .some (.refl x)
  refine ⟨h.isTruthy_eq, fun op u ↦ ?_, fun op u ↦ ?_⟩
  · exact sameAnswer_holds op (h.equals_eq u) h.toNumber? (hself u)
  · refine sameAnswer_holds op ?_ (hself u) h.toNumber?
    rw [equals_comm u v, equals_comm u w]
    exact h.equals_eq u

/-! ### The laws of equality -/

theorem equals_sequence_scalar :
    {v w : Value} → v.items?.isSome → w.items? = none → v.equals w = false
  | .tuple _, .number _, _, _ => rfl
  | .tuple _, .bool _, _, _ => rfl
  | .list _, .number _, _, _ => rfl
  | .list _, .bool _, _, _ => rfl

/-- Equality is symmetric and transitive, and reflexive exactly off the values with a NaN. Equal
values are interchangeable. Values of different kinds are equal only if they are a truth value and
its number. -/
theorem equality_sound :
    (∀ v w : Value, v.equals w = w.equals v) ∧
      (∀ u v w : Value, u.equals v → v.equals w → u.equals w) ∧
      (∀ v : Value, v.equals v ↔ ∀ x ∈ v.numbers, x.isNaN = false) ∧
      (∀ v w : Value, v.equals w → v.Interchangeable w) ∧
      (∀ as bs, (tuple as).equals (list bs) = false) ∧
      (∀ v w : Value, v.items?.isSome → w.items? = none → v.equals w = false) ∧
      ∀ flag x, (bool flag).equals (number x) ↔ Same x (if flag then 1 else 0) := by
  refine ⟨equals_comm, fun u v w h h' ↦ ?_, fun v ↦ ?_, fun v w h ↦ ?_, fun _ _ ↦ rfl,
    fun v w ↦ equals_sequence_scalar, ?_⟩
  · rw [equals_iff] at h h' ⊢
    exact h.trans h'
  · rw [equals_iff]
    exact equal_self_iff v
  · exact (equals_iff.1 h).interchangeable
  · intro flag x
    have hnan : (if flag then 1 else 0 : Float).isNaN = false := by cases flag <;> decide
    rw [equals_of_toNumber? rfl rfl, Number.beq_iff, and_iff_left hnan]
    exact ⟨Same.symm, Same.symm⟩

/-- A false flag, a zero and a negative zero in a tuple. -/
theorem equality_sound_zeros :
    (tuple [bool false]).equals (tuple [number (-0)]) ∧
      (tuple [bool false]).Interchangeable (tuple [number (-0)]) := by
  obtain ⟨-, htrans, -, hinterchangeable, -⟩ := equality_sound
  have hflag : (tuple [bool false]).equals (tuple [number 0]) := by decide
  have hzero : (tuple [number 0]).equals (tuple [number (-0)]) := by decide
  have hequals := htrans _ _ _ hflag hzero
  exact ⟨hequals, hinterchangeable _ _ hequals⟩

end Value

end Waypoints
