import Waypoints.Proofs.Evaluation.Poles
import Waypoints.Proofs.Evaluation.Semantics
import Waypoints.Proofs.Number.Arithmetic
/-!
# Evaluation over the integers

`Expr.onIntegers` evaluates an expression with unbounded integers for numbers, floor division and
floor modulus, and with the budget and the range limit of the language. It records every number that
it produces. `IntValue.Represents` compares its values with those of the language, number by number.
-/

set_option autoImplicit false
set_option relaxedAutoImplicit false

namespace Waypoints

/-! ### Values -/

/-- A value with integers for numbers. -/
inductive IntValue
  | number (value : Int)
  | bool (flag : Bool)
  | tuple (items : List IntValue)
  | list (items : List IntValue)

namespace IntValue

/-- A value as an integer. A truth value counts as 0 or 1. -/
def toInt? : IntValue → Option Int
  | number value => some value
  | bool flag => some (if flag then 1 else 0)
  | tuple _ => none
  | list _ => none

/-- The items of a tuple or a list. -/
def items? : IntValue → Option (List IntValue)
  | tuple items => some items
  | list items => some items
  | number _ => none
  | bool _ => none

/-- A number other than zero, a true truth value, or a sequence with items. -/
def isTruthy : IntValue → Bool
  | number value => value != 0
  | bool flag => flag
  | tuple items => !items.isEmpty
  | list items => !items.isEmpty

mutual

/-- How many values one is built from, itself included. -/
def weight : IntValue → Nat
  | number _ => 1
  | bool _ => 1
  | tuple items => totalWeight items + 1
  | list items => totalWeight items + 1

/-- The weights of values taken together. -/
def totalWeight : List IntValue → Nat
  | [] => 0
  | v :: vs => weight v + totalWeight vs

end

mutual

/-- Equality: sequences of one kind are equal if their items are, and numbers and truth values if
they are the same integer. -/
def equals : IntValue → IntValue → Bool
  | tuple as, tuple bs => equalsAll as bs
  | list as, list bs => equalsAll as bs
  | number a, v => v.toInt?.any (a == ·)
  | bool a, v => v.toInt?.any ((if a then 1 else 0) == ·)
  | _, _ => false

/-- Equality of rows of values: as many, and equal one by one. -/
def equalsAll : List IntValue → List IntValue → Bool
  | [], [] => true
  | a :: as, b :: bs => equals a b && equalsAll as bs
  | _, _ => false

end

end IntValue

/-! ### Runs -/

/-- A run over the integers: the numbers that it produces, and its result with what is left of the
budget, or the class of its error. -/
structure IntRun (α : Type) where
  produced : List Int
  outcome : Except ExprErrorClass (α × Nat)

/-- A step over the integers, which has a run for every budget. -/
def IntM (α : Type) : Type :=
  Nat → IntRun α

namespace IntM

variable {α β : Type}

instance : Monad IntM where
  pure a := fun b ↦ ⟨[], .ok (a, b)⟩
  bind x f := fun b ↦
    match x b with
    | ⟨produced, .error c⟩ => ⟨produced, .error c⟩
    | ⟨produced, .ok (a, left)⟩ => ⟨produced ++ (f a left).produced, (f a left).outcome⟩

/-- Ends with an outcome that produces nothing. -/
def ofExcept (x : Except ExprErrorClass α) : IntM α :=
  fun b ↦ ⟨[], x.map (·, b)⟩

/-- Ends with an error of a class if there is nothing. -/
def ofOption (c : ExprErrorClass) (x : Option α) : IntM α :=
  ofExcept (x.elim (.error c) .ok)

/-- Produces a number. -/
def produce (n : Int) : IntM IntValue :=
  fun b ↦ ⟨[n], .ok (.number n, b)⟩

/-- Pays for values. -/
def pay (values : Nat) : IntM Unit :=
  fun b ↦ ⟨[], if values ≤ b then .ok ((), b - values) else .error .tooManyValues⟩

end IntM

/-! ### Operations -/

/-- An operator on integers. The quotient `/` and the power `**` need not be integers, and have no
result here. -/
def BinaryOp.onIntegers (op : BinaryOp) (a b : Int) : Except ExprErrorClass Int :=
  match op with
  | .add => .ok (a + b)
  | .sub => .ok (a - b)
  | .mul => .ok (a * b)
  | .floorDiv => if b = 0 then .error .arithmetic else .ok (a.fdiv b)
  | .mod => if b = 0 then .error .arithmetic else .ok (a.fmod b)
  | .div => .error .arithmetic
  | .pow => .error .arithmetic

/-- The number of integers from `start` in steps of `step` before `stop`: the quotient of the
distance by the step, rounded up. -/
def intLength (start stop step : Int) : Nat :=
  (-((start - stop).fdiv step)).toNat

namespace IntValue

open IntM

/-- Applies an operator with one operand. -/
def unary (op : UnaryOp) (v : IntValue) : IntM IntValue :=
  match op with
  | .not => return .bool (!v.isTruthy)
  | .plus => do produce (← ofOption .type v.toInt?)
  | .minus => do produce (-(← ofOption .type v.toInt?))

/-- Applies an operator to integers. -/
def arithmetic (op : BinaryOp) (v w : IntValue) : IntM IntValue :=
  match v.toInt?, w.toInt? with
  | some a, some b => do produce (← ofExcept (op.onIntegers a b))
  | _, _ => ofExcept (.error .type)

/-- Applies an operator with two operands. -/
def binary : BinaryOp → IntValue → IntValue → IntM IntValue
  | .add, .list as, .list bs => do
    pay (totalWeight bs)
    return .list (as ++ bs)
  | .add, .tuple as, .tuple bs => do
    pay (totalWeight bs)
    return .tuple (as ++ bs)
  | op, v, w => arithmetic op v w

/-- The order of two values as integers. -/
def ordered (before : Int → Int → Bool) (v w : IntValue) : IntM Bool :=
  match v.toInt?, w.toInt? with
  | some a, some b => return before a b
  | _, _ => ofExcept (.error .type)

/-- Compares two values. -/
def holds (op : CompareOp) (v w : IntValue) : IntM Bool :=
  match op with
  | .eq => return v.equals w
  | .ne => return !v.equals w
  | .lt => ordered (fun a b ↦ a < b) v w
  | .le => ordered (fun a b ↦ a ≤ b) v w
  | .gt => ordered (fun a b ↦ a > b) v w
  | .ge => ordered (fun a b ↦ a ≥ b) v w

/-- The integers from `start` in steps of `step` before `stop`. -/
def progression (start stop step : Int) : IntM IntValue :=
  if step = 0 then ofExcept (.error .arithmetic)
  else if maxRangeLength < intLength start stop step then ofExcept (.error .rangeTooLarge)
  else do
    pay (intLength start stop step)
    return .list (← (List.range (intLength start stop step)).mapM' fun i : Nat ↦
      produce (start + step * i))

/-- The value of `range` for the values of its arguments. -/
def range (args : List IntValue) : IntM IntValue := do
  match ← args.mapM' fun v ↦ ofOption .type v.toInt? with
  | [stop] => progression 0 stop 1
  | [start, stop] => progression start stop 1
  | [start, stop, step] => progression start stop step
  | _ => ofExcept (.error .type)

end IntValue

/-- What the board binds a name to, as an integer. The wildcard is none. -/
def Bindings.findInt (b : Bindings) (word : String) : IntM IntValue :=
  if word = "x" then .produce (Number.toInt b.x)
  else if word = "y" then .produce (Number.toInt b.y)
  else if word = "w" then .produce (Number.toInt b.w)
  else if word = "h" then .produce (Number.toInt b.h)
  else .ofExcept (.error .unknownName)

/-- The operations of the expression language over the integers. -/
def Semantics.integers (b : Bindings) : Semantics IntM IntValue where
  number value := .produce (Number.toInt value)
  name := b.findInt
  unary := IntValue.unary
  binary := IntValue.binary
  holds := IntValue.holds
  range := IntValue.range
  items v := .ofOption .type v.items?
  pay v := .pay v.weight
  isTruthy := IntValue.isTruthy
  bool := .bool
  tuple := .tuple
  list := .list

/-- Evaluates an expression over the integers, for the bindings of the board. -/
def Expr.onIntegers (e : Expr) (b : Bindings) : IntM IntValue :=
  e.interpret (.integers b) []

/-! ### The same values -/

/-- The greatest magnitude of a number of a run that binary64 follows. -/
def maxInteger : Nat := 2 ^ 52

/-- A number that is an integer of at most `maxInteger`, with 0 equal to -0. -/
def Number.IsInteger (n : Int) (x : Float) : Prop :=
  n.natAbs ≤ maxInteger ∧ Same x (ofInt n)

mutual

/-- A value over the integers and a value of the language: the same structure, with the same
integers for numbers. -/
inductive IntValue.Represents : IntValue → Value → Prop
  | number {n : Int} {x : Float} :
      Number.IsInteger n x → IntValue.Represents (.number n) (.number x)
  | bool (flag : Bool) : IntValue.Represents (.bool flag) (.bool flag)
  | tuple {as : List IntValue} {bs : List Value} :
      IntValue.RepresentsAll as bs → IntValue.Represents (.tuple as) (.tuple bs)
  | list {as : List IntValue} {bs : List Value} :
      IntValue.RepresentsAll as bs → IntValue.Represents (.list as) (.list bs)

/-- Rows of values that represent each other one by one. -/
inductive IntValue.RepresentsAll : List IntValue → List Value → Prop
  | nil : IntValue.RepresentsAll [] []
  | cons {a : IntValue} {b : Value} {as : List IntValue} {bs : List Value} :
      IntValue.Represents a b → IntValue.RepresentsAll as bs →
      IntValue.RepresentsAll (a :: as) (b :: bs)

end

namespace Number.IsInteger

variable {a b : Int} {x y : Float}

theorem zero : IsInteger 0 0 :=
  ⟨Nat.zero_le _, .of_eq rfl⟩

theorem one : IsInteger 1 1 :=
  ⟨by decide, .of_eq rfl⟩

theorem natAbs_lt (h : IsInteger a x) : a.natAbs < 2 ^ 53 :=
  h.1.trans_lt (by decide)

theorem natAbs_le (h : IsInteger a x) : a.natAbs ≤ 2 ^ 53 :=
  h.natAbs_lt.le

theorem natAbs_sub_le (hx : IsInteger a x) (hy : IsInteger b y) : (a - b).natAbs ≤ 2 ^ 53 := by
  have h := hx.1
  have h' := hy.1
  unfold maxInteger at h h'
  omega

theorem neg (h : IsInteger a x) : IsInteger (-a) (-x) :=
  ⟨(Int.natAbs_neg a).symm ▸ h.1, h.2.neg.trans (same_neg_ofInt_of_le h.natAbs_le)⟩

theorem beq_eq (hx : IsInteger a x) (hy : IsInteger b y) : (x == y) = (a == b) := by
  rw [hx.2.beq_eq hy.2, Bool.eq_iff_iff, ofInt_beq_iff hx.natAbs_le hy.natAbs_le, beq_iff_eq]

theorem lt_iff (hx : IsInteger a x) (hy : IsInteger b y) : x < y ↔ a < b :=
  (hx.2.lt_iff hy.2).trans (ofInt_lt_iff hx.natAbs_le hy.natAbs_le)

theorem le_iff (hx : IsInteger a x) (hy : IsInteger b y) : x ≤ y ↔ a ≤ b :=
  (hx.2.le_iff hy.2).trans (ofInt_le_iff hx.natAbs_le hy.natAbs_le)

theorem isWhole (h : IsInteger a x) : isWhole x :=
  h.2.isWhole_eq.trans (isWhole_ofInt h.natAbs_le)

theorem isNaN_eq_false (h : IsInteger a x) : x.isNaN = false :=
  h.2.isNaN_eq.trans (isNaN_ofUnpacked _ |>.trans (isNaN_normalize ..))

end Number.IsInteger

namespace IntValue

variable {v v' : IntValue} {w w' : Value}

theorem representsAll_iff {as : List IntValue} {bs : List Value} :
    RepresentsAll as bs ↔ List.Forall₂ Represents as bs := by
  constructor
  · intro h
    induction as generalizing bs with
    | nil =>
      cases h
      exact .nil
    | cons a as ih =>
      cases h with
      | cons hab hall => exact .cons hab (ih hall)
  · intro h
    induction h with
    | nil => exact .nil
    | cons hab _ ih => exact .cons hab ih

theorem RepresentsAll.isEmpty_eq {as : List IntValue} {bs : List Value} (h : RepresentsAll as bs) :
    as.isEmpty = bs.isEmpty := by
  cases h <;> rfl

theorem RepresentsAll.append {as as' : List IntValue} {bs bs' : List Value}
    (h : RepresentsAll as bs) (h' : RepresentsAll as' bs') :
    RepresentsAll (as ++ as') (bs ++ bs') := by
  rw [representsAll_iff] at h h' ⊢
  exact List.rel_append h h'

theorem Represents.toInt? (h : Represents v w) :
    Option.Rel Number.IsInteger v.toInt? w.toNumber? := by
  cases h with
  | number h => exact .some h
  | bool flag =>
    cases flag
    · exact .some .zero
    · exact .some .one
  | tuple _ => exact .none
  | list _ => exact .none

theorem Represents.items? (h : Represents v w) :
    Option.Rel (List.Forall₂ Represents) v.items? w.items? := by
  cases h with
  | number _ => exact .none
  | bool _ => exact .none
  | tuple h => exact .some (representsAll_iff.1 h)
  | list h => exact .some (representsAll_iff.1 h)

theorem Represents.isTruthy_eq (h : Represents v w) : v.isTruthy = w.isTruthy := by
  cases h with
  | number h => exact congrArg not (h.beq_eq .zero).symm
  | bool _ => rfl
  | tuple h => exact congrArg not h.isEmpty_eq
  | list h => exact congrArg not h.isEmpty_eq

mutual

theorem Represents.weight_eq {v : IntValue} {w : Value} : Represents v w → v.weight = w.weight
  | .number _ => rfl
  | .bool _ => rfl
  | .tuple h => congrArg (· + 1) h.totalWeight_eq
  | .list h => congrArg (· + 1) h.totalWeight_eq

theorem RepresentsAll.totalWeight_eq {as : List IntValue} {bs : List Value} :
    RepresentsAll as bs → totalWeight as = Value.totalWeight bs
  | .nil => rfl
  | .cons h hall => congrArg₂ (· + ·) h.weight_eq hall.totalWeight_eq

end

theorem number_equals {a : Int} {x : Float} (ha : Number.IsInteger a x) (hw : Represents v w) :
    v.toInt?.any (a == ·) = w.toNumber?.any (x == ·) := by
  have hnumber := hw.toInt?
  revert hnumber
  generalize v.toInt? = n
  generalize w.toNumber? = y
  rintro (hy | _)
  · exact (ha.beq_eq hy).symm
  · rfl

mutual

theorem Represents.equals_eq {v v' : IntValue} {w w' : Value} :
    Represents v w → Represents v' w' → v.equals v' = w.equals w'
  | .number ha, hw => by
    rw [equals, Value.equals]
    exact number_equals ha hw
  | .bool flag, hw => by
    rw [equals, Value.equals]
    cases flag
    · exact number_equals .zero hw
    · exact number_equals .one hw
  | .tuple has, .tuple hbs => has.equalsAll_eq hbs
  | .list has, .list hbs => has.equalsAll_eq hbs
  | .tuple _, .number _ => rfl
  | .tuple _, .bool _ => rfl
  | .tuple _, .list _ => rfl
  | .list _, .number _ => rfl
  | .list _, .bool _ => rfl
  | .list _, .tuple _ => rfl

theorem RepresentsAll.equalsAll_eq {as bs : List IntValue} {as' bs' : List Value} :
    RepresentsAll as as' → RepresentsAll bs bs' → equalsAll as bs = Value.equalsAll as' bs'
  | .nil, .nil => rfl
  | .nil, .cons _ _ => rfl
  | .cons _ _, .nil => rfl
  | .cons ha has, .cons hb hbs => congrArg₂ (· && ·) (ha.equals_eq hb) (has.equalsAll_eq hbs)

end

end IntValue

end Waypoints
