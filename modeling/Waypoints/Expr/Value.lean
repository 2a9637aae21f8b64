import Waypoints.Geometry.Point
/-!
# Values of expressions

A value is a number, a truth value, a tuple or a list. `weight` counts the values that one is built
from, `equals` is the equality of the expression language, and `toPaths?` reads a value as paths: a
coordinate, a list of coordinates, or a list of lists of coordinates.
-/

set_option autoImplicit false
set_option relaxedAutoImplicit false

namespace Waypoints

/-- What an expression evaluates to. -/
inductive Value
  | number (value : Float)
  | bool (flag : Bool)
  | tuple (items : List Value)
  | list (items : List Value)

/-- The four kinds of values. -/
inductive Kind
  | number
  | bool
  | tuple
  | list
  deriving DecidableEq, Repr

/-- How a kind is named in messages. -/
def Kind.name : Kind → String
  | number => "number"
  | bool => "bool"
  | tuple => "tuple"
  | list => "list"

namespace Value

/-- The kind of a value. -/
def kind : Value → Kind
  | number _ => .number
  | bool _ => .bool
  | tuple _ => .tuple
  | list _ => .list

/-- A value as a number. A truth value counts as 0 or 1. -/
def toNumber? : Value → Option Float
  | number value => some value
  | bool flag => some (if flag then 1 else 0)
  | tuple _ => none
  | list _ => none

/-- The items of a tuple or a list. -/
def items? : Value → Option (List Value)
  | tuple items => some items
  | list items => some items
  | number _ => none
  | bool _ => none

/-- A number other than zero, NaN included, a true truth value, or a sequence with items. -/
def isTruthy : Value → Bool
  | number value => value != 0
  | bool flag => flag
  | tuple items => !items.isEmpty
  | list items => !items.isEmpty

mutual

/-- How many values one is built from, itself included. -/
def weight : Value → Nat
  | number _ => 1
  | bool _ => 1
  | tuple items => totalWeight items + 1
  | list items => totalWeight items + 1

/-- The weights of values taken together. -/
def totalWeight : List Value → Nat
  | [] => 0
  | v :: vs => weight v + totalWeight vs

end

mutual

/-- Equality: sequences of one kind are equal if their items are, and numbers and truth values if
they are numerically equal. -/
def equals : Value → Value → Bool
  | tuple as, tuple bs => equalsAll as bs
  | list as, list bs => equalsAll as bs
  | number a, v => v.toNumber?.any (a == ·)
  | bool a, v => v.toNumber?.any ((if a then 1 else 0) == ·)
  | _, _ => false

/-- Equality of rows of values: as many, and equal one by one. -/
def equalsAll : List Value → List Value → Bool
  | [], [] => true
  | a :: as, b :: bs => equals a b && equalsAll as bs
  | _, _ => false

end

/-! ### Text -/

mutual

/-- The text of a value, in the notation of expressions. A tuple of one item has a comma after
the item. -/
def text : Value → String
  | number value => Number.literal value
  | bool flag => if flag then "true" else "false"
  | tuple items =>
    "(" ++ ", ".intercalate (texts items) ++ (if items.length = 1 then ",)" else ")")
  | list items => "[" ++ ", ".intercalate (texts items) ++ "]"

/-- The texts of values. -/
def texts : List Value → List String
  | [] => []
  | v :: vs => text v :: texts vs

end

/-! ### Paths -/

/-- A sequence of two numbers as a coordinate. Truth values are no coordinates. -/
def toPoint? (v : Value) : Option Point :=
  match v.items? with
  | some [number x, number y] => some ⟨x, y⟩
  | _ => none

/-- A row of coordinates as a path. -/
def pathOf? (items : List Value) : Option Path :=
  if items.isEmpty then none else items.mapM toPoint?

/-- A value as paths: one coordinate, one path, or several paths. -/
def toPaths? (v : Value) : Option (List Path) :=
  match v.toPoint? with
  | some p => some [[p]]
  | none => do
    let items ← v.items?
    match pathOf? items with
    | some path => return [path]
    | none => if items.isEmpty then none else items.mapM fun item ↦ item.items? >>= pathOf?

end Value

end Waypoints
