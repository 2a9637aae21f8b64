import Waypoints.Expr.Fault
import Waypoints.Number.Power
/-!
# Evaluation

`Expr.eval` evaluates an expression in an environment: the bindings of the board and the variables
of the clauses around it. It has a budget of values to build. Every item of a range, every element
of a comprehension and every item that a sum of sequences adds is paid for with its weight, and
what cannot be paid for is refused.
-/

set_option autoImplicit false
set_option relaxedAutoImplicit false

namespace Waypoints

/-- What the board binds: the position of the piece in its own frame, the extent of the board, and
whether `any` may be used. -/
structure Bindings where
  x : Float
  y : Float
  w : Float
  h : Float
  anyOk : Bool

/-- The bindings in force at a place of an expression, the innermost variable first. -/
structure Env where
  board : Bindings
  locals : List (String × Value)

/-- The not-a-number that stands for any coordinate. -/
def wildcard : Float := 0 / 0

namespace Env

/-- The environment of a whole expression. -/
def ofBoard (b : Bindings) : Env :=
  ⟨b, []⟩

/-- Binds one more variable. -/
def bind (env : Env) (loopVar : String) (v : Value) : Env :=
  { env with locals := (loopVar, v) :: env.locals }

end Env

/-- What the board binds a name to. -/
def Bindings.find (b : Bindings) (word : String) : Except EvalFault Value :=
  if word = "x" then .ok (.number b.x)
  else if word = "y" then .ok (.number b.y)
  else if word = "w" then .ok (.number b.w)
  else if word = "h" then .ok (.number b.h)
  else if word = "any" then
    if b.anyOk then .ok (.number wildcard) else .error .wildcardNotAllowed
  else .error (.unknownName word)

/-- What a name stands for. -/
def Env.find (env : Env) (word : String) : Except EvalFault Value :=
  match env.locals.lookup word with
  | some v => .ok v
  | none => env.board.find word

/-! ### Operations on values -/

/-- A step of an evaluation, which may spend from the budget or fail. -/
abbrev EvalM := StateT Nat (Except EvalFault)

/-- Pays for values. -/
def spend (values : Nat) : EvalM Unit := do
  if values ≤ (← get) then
    modify (· - values)
  else
    throw .tooManyValues

/-- The operand of an operator that takes one number. -/
def numberOperand (op : UnaryOp) (v : Value) : Except EvalFault Float :=
  match v.toNumber? with
  | some x => .ok x
  | none => .error (.badOperand op v.kind)

/-- Applies an operator with one operand. -/
def UnaryOp.apply (op : UnaryOp) (v : Value) : Except EvalFault Value :=
  match op with
  | .not => .ok (.bool (!v.isTruthy))
  | .plus => do return .number (← numberOperand .plus v)
  | .minus => do return .number (-(← numberOperand .minus v))

/-- Refuses a zero divisor. -/
def nonzero (b : Float) (fault : EvalFault) (result : Float) : Except EvalFault Float :=
  if b == 0 then .error fault else .ok result

/-- The result of an operator on numbers, before it is checked to be a number. The remainder takes
the sign of the divisor. -/
def BinaryOp.compute (op : BinaryOp) (a b : Float) : Except EvalFault Float :=
  match op with
  | .add => .ok (a + b)
  | .sub => .ok (a - b)
  | .mul => .ok (a * b)
  | .div => nonzero b .divisionByZero (a / b)
  | .floorDiv => nonzero b .divisionByZero (Number.floor (a / b))
  | .mod => nonzero b .moduloByZero (a - b * Number.floor (a / b))
  | .pow => .ok (Number.power a b)

/-- Applies an operator to numbers. Numbers have a number as their result: only a wildcard operand
may give a wildcard. -/
def BinaryOp.arithmetic (op : BinaryOp) (a b : Float) : Except EvalFault Float := do
  let result ← op.compute a b
  if result.isNaN && !a.isNaN && !b.isNaN then
    throw (.notANumber op a b)
  else
    return result

/-- Applies an operator to values that are no two sequences of one kind under `+`. -/
def BinaryOp.onNumbers (op : BinaryOp) (lhs rhs : Value) : Except EvalFault Value :=
  match lhs.toNumber?, rhs.toNumber? with
  | some a, some b => do return .number (← op.arithmetic a b)
  | _, _ => .error (.unsupportedOperands op lhs.kind rhs.kind)

/-- Applies an operator with two operands. The items that the right one of two sequences adds are
paid for. -/
def BinaryOp.apply (op : BinaryOp) (lhs rhs : Value) : EvalM Value :=
  match op, lhs, rhs with
  | .add, .list as, .list bs => do
    spend (Value.totalWeight bs)
    return .list (as ++ bs)
  | .add, .tuple as, .tuple bs => do
    spend (Value.totalWeight bs)
    return .tuple (as ++ bs)
  | op, lhs, rhs => liftM (op.onNumbers lhs rhs)

/-- The order of two values as numbers. -/
def ordered (before : Float → Float → Bool) (lhs rhs : Value) : Except EvalFault Bool :=
  match lhs.toNumber?, rhs.toNumber? with
  | some a, some b => .ok (before a b)
  | _, _ => .error (.unordered lhs.kind rhs.kind)

/-- Compares two values. -/
def CompareOp.holds (op : CompareOp) (lhs rhs : Value) : Except EvalFault Bool :=
  match op with
  | .eq => .ok (lhs.equals rhs)
  | .ne => .ok (!lhs.equals rhs)
  | .lt => ordered (fun a b ↦ a < b) lhs rhs
  | .le => ordered (fun a b ↦ a ≤ b) lhs rhs
  | .gt => ordered (fun a b ↦ a > b) lhs rhs
  | .ge => ordered (fun a b ↦ a ≥ b) lhs rhs

/-- Whether a connective's left operand is its result. -/
def LogicOp.decides (op : LogicOp) (lhs : Value) : Bool :=
  match op with
  | .and => !lhs.isTruthy
  | .or => lhs.isTruthy

/-! ### Ranges -/

/-- An argument of `range`, which has to be a whole number. -/
def rangeArgument (v : Value) : Except EvalFault Float :=
  match v.toNumber? with
  | some x => if Number.isWhole x then .ok x else .error (.rangeNeedsIntegers v)
  | none => .error (.rangeNeedsIntegers v)

/-- An arithmetic progression. -/
structure Progression where
  start : Float
  stop : Float
  step : Float

namespace Progression

/-- The progression that one, two or three arguments describe. -/
def ofArguments? : List Float → Option Progression
  | [stop] => some ⟨0, stop, 1⟩
  | [start, stop] => some ⟨start, stop, 1⟩
  | [start, stop, step] => some ⟨start, stop, step⟩
  | _ => none

/-- The number of items before `stop`, as a number. -/
def span (p : Progression) : Float :=
  let steps := Number.ceil ((p.stop - p.start) / p.step)
  if steps > 0 then steps else 0

/-- The number of items before `stop`; at most the greatest 64-bit word. -/
def length (p : Progression) : Nat :=
  p.span.toUInt64.toNat

/-- The items before `stop`. -/
def items (p : Progression) : List Value :=
  (List.range p.length).map fun i ↦ .number (p.start + p.step * Number.ofNat i)

end Progression

/-- The items of a progression, which has to move, to be short enough, and to be paid for. -/
def Progression.build (p : Progression) : EvalM Value := do
  if p.step == 0 then
    throw .zeroStep
  else if p.span > Number.ofNat maxRangeLength then
    throw (.rangeTooLarge p.length)
  else
    spend p.length
    return .list p.items

/-- The value of `range` for the values of its arguments. -/
def rangeOf (args : List Value) : EvalM Value := do
  let numbers ← args.mapM fun v ↦ (liftM (rangeArgument v) : EvalM Float)
  match Progression.ofArguments? numbers with
  | some p => p.build
  | none => throw .rangeArity

/-- The items of what a clause runs over. -/
def iterate (v : Value) : Except EvalFault (List Value) :=
  match v.items? with
  | some items => .ok items
  | none => .error (.notIterable v.kind)

/-! ### Expressions -/

namespace Expr

mutual

/-- Evaluates an expression. -/
def eval : Expr → Env → EvalM Value
  | number value, _ => return .number value
  | name word, env => liftM (env.find word)
  | unary op operand, env => do
    let v ← eval operand env
    liftM (op.apply v)
  | binary op lhs rhs, env => do
    let a ← eval lhs env
    let b ← eval rhs env
    op.apply a b
  | compare first links, env => do
    let v ← eval first env
    return .bool (← evalLinks links env v)
  | logic op lhs rhs, env => do
    let v ← eval lhs env
    if op.decides v then return v else eval rhs env
  | conditional value condition otherwise, env => do
    let v ← eval condition env
    if v.isTruthy then eval value env else eval otherwise env
  | tuple items, env => do
    return .tuple (← evalAll items env)
  | list items, env => do
    return .list (← evalAll items env)
  | comprehension element clauses, env => do
    let build (inner : Env) : EvalM (List Value) := do
      let v ← eval element inner
      spend v.weight
      return [v]
    return .list (← evalClauses build clauses env)
  | range args, env => do
    rangeOf (← evalAll args env)

/-- Evaluates expressions from left to right. -/
def evalAll : List Expr → Env → EvalM (List Value)
  | [], _ => return []
  | e :: es, env => do
    let v ← eval e env
    return v :: (← evalAll es env)

/-- Evaluates a chain of comparisons with the operand before it, as far as they hold. -/
def evalLinks : List Link → Env → Value → EvalM Bool
  | [], _, _ => return true
  | .mk op operand :: links, env, lhs => do
    let rhs ← eval operand env
    if ← liftM (op.holds lhs rhs) then evalLinks links env rhs else return false

/-- Evaluates conditions as far as they hold, and says whether all of them do. -/
def evalFilters : List Expr → Env → EvalM Bool
  | [], _ => return true
  | e :: es, env => do
    let v ← eval e env
    if v.isTruthy then evalFilters es env else return false

/-- Runs through all the bindings that clauses give, and collects what `build` gives for each. -/
def evalClauses (build : Env → EvalM (List Value)) : List Clause → Env → EvalM (List Value)
  | [], env => build env
  | .mk loopVar items filters :: clauses, env => do
    let run ← liftM (iterate (← eval items env))
    let built ← run.mapM fun item ↦ do
      let inner := env.bind loopVar item
      if ← evalFilters filters inner then evalClauses build clauses inner else return []
    return built.flatten

end

/-- The value of an expression for the bindings of the board. -/
def evaluate (e : Expr) (b : Bindings) : Except EvalFault Value :=
  (e.eval (.ofBoard b)).run' maxValues

end Expr

end Waypoints
