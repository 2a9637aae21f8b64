import Waypoints.Number.Text
/-!
# Expressions

The tree of a waypoint expression. `Expr.same` compares two trees, numbers by value.
-/

set_option autoImplicit false
set_option relaxedAutoImplicit false

namespace Waypoints

/-- The operators with one operand. -/
inductive UnaryOp
  | plus
  | minus
  | not
  deriving DecidableEq, Repr

/-- The arithmetic operators. -/
inductive BinaryOp
  | add
  | sub
  | mul
  | div
  | floorDiv
  | mod
  | pow
  deriving DecidableEq, Repr

/-- How an arithmetic operator is named in messages. -/
def BinaryOp.name : BinaryOp → String
  | add => "Add"
  | sub => "Sub"
  | mul => "Mul"
  | div => "Div"
  | floorDiv => "FloorDiv"
  | mod => "Mod"
  | pow => "Pow"

/-- The comparisons. -/
inductive CompareOp
  | lt
  | le
  | gt
  | ge
  | eq
  | ne
  deriving DecidableEq, Repr

/-- The connectives that evaluate their right operand only if the left one does not decide. -/
inductive LogicOp
  | and
  | or
  deriving DecidableEq, Repr

mutual

/-- An expression. -/
inductive Expr
  | number (value : Float)
  | name (word : String)
  | unary (op : UnaryOp) (operand : Expr)
  | binary (op : BinaryOp) (lhs rhs : Expr)
  /-- A chain of comparisons, which holds if every link does. -/
  | compare (first : Expr) (links : List Link)
  | logic (op : LogicOp) (lhs rhs : Expr)
  /-- `value if condition else otherwise`. -/
  | conditional (value condition otherwise : Expr)
  | tuple (items : List Expr)
  | list (items : List Expr)
  /-- A list built from one element for each binding that the clauses give. -/
  | comprehension (element : Expr) (clauses : List Clause)
  | range (args : List Expr)

/-- A comparison with the operand before it. -/
inductive Link
  | mk (op : CompareOp) (operand : Expr)

/-- `for loopVar in items`, with the conditions that follow it. -/
inductive Clause
  | mk (loopVar : String) (items : Expr) (filters : List Expr)

end

namespace Expr

mutual

/-- Whether two trees are equal, numbers being compared by value. -/
def same : Expr → Expr → Bool
  | number a, number b => a == b
  | name a, name b => a == b
  | unary op a, unary op' a' => op == op' && same a a'
  | binary op a b, binary op' a' b' => op == op' && same a a' && same b b'
  | compare a links, compare a' links' => same a a' && sameLinks links links'
  | logic op a b, logic op' a' b' => op == op' && same a a' && same b b'
  | conditional a b c, conditional a' b' c' => same a a' && same b b' && same c c'
  | tuple items, tuple items' => sameAll items items'
  | list items, list items' => sameAll items items'
  | comprehension e clauses, comprehension e' clauses' =>
    same e e' && sameClauses clauses clauses'
  | range args, range args' => sameAll args args'
  | _, _ => false

/-- Whether two rows of trees are equal. -/
def sameAll : List Expr → List Expr → Bool
  | [], [] => true
  | a :: as, b :: bs => same a b && sameAll as bs
  | _, _ => false

/-- Whether two chains of comparisons are equal. -/
def sameLinks : List Link → List Link → Bool
  | [], [] => true
  | .mk op a :: as, .mk op' b :: bs => op == op' && same a b && sameLinks as bs
  | _, _ => false

/-- Whether two rows of clauses are equal. -/
def sameClauses : List Clause → List Clause → Bool
  | [], [] => true
  | .mk v i fs :: as, .mk v' i' fs' :: bs =>
    v == v' && same i i' && sameAll fs fs' && sameClauses as bs
  | _, _ => false

end

end Expr

end Waypoints
