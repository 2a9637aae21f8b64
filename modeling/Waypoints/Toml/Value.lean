import Waypoints.Number.Decimal
/-!
# Values of a TOML document

What a document holds once its text is read. Dates and times are checked when they are read and
then only known to be there. A number may have the outline of one and still be none, because it is
too large for every type of number or because its digits are not all there; such a value is kept,
and whoever looks at it refuses it.
-/

set_option autoImplicit false
set_option relaxedAutoImplicit false

namespace Waypoints.Toml

/-- A value. The entries of a table have distinct names. -/
inductive Value
  | string (text : String)
  | integer (n : Int)
  | float (x : Float)
  /-- Something with the outline of a number that is none: an integer that no word of 128 bits
  holds or whose digits are none, or a decimal beyond the finite numbers. -/
  | illegible
  | boolean (b : Bool)
  | datetime
  | array (items : List Value)
  | table (entries : List (String × Value))

/-- The entries of a table. -/
abbrev Entries := List (String × Value)

/-- Whether a word of so many bits, signed or unsigned, holds an integer. -/
def fitsWord (bits : Nat) : Int → Bool
  | .ofNat n => n < Nat.pow 2 bits
  | .negSucc n => n < Nat.pow 2 (bits - 1)

namespace Value

/-- The value of a written integer. -/
def ofInteger (n : Int) : Value :=
  if fitsWord 128 n then integer n else illegible

/-- The value of a written decimal, whose magnitude may be beyond the finite numbers. -/
def ofDecimal (negative : Bool) (d : Decimal) : Value :=
  let magnitude := d.toFloat
  if magnitude.isFinite then float (if negative then -magnitude else magnitude) else illegible

mutual

/-- Whether every number of a value is one, at any depth. -/
def isLegible : Value → Bool
  | illegible => false
  | array items => allLegible items
  | table entries => entriesLegible entries
  | _ => true

/-- Whether every number of some values is one. -/
def allLegible : List Value → Bool
  | [] => true
  | item :: items => item.isLegible && allLegible items

/-- Whether every number of some entries is one. -/
def entriesLegible : List (String × Value) → Bool
  | [] => true
  | (_, value) :: entries => value.isLegible && entriesLegible entries

end

end Value

end Waypoints.Toml
