/-!
# Decimal numerals

A `Decimal` is a count of powers of ten, and `Decimal.toFloat` the binary64 number nearest to it,
ties going to the even mantissa. `ofParts` puts one together from the digits a text shows before
and after its point.
-/

set_option autoImplicit false
set_option relaxedAutoImplicit false

namespace Waypoints

/-- The number `digits * 10 ^ exponent`. -/
structure Decimal where
  digits : Nat
  exponent : Int
  deriving DecidableEq, Repr

namespace Decimal

/-- The binary64 number nearest to a decimal one. -/
def toFloat (d : Decimal) : Float :=
  Float.ofModel (.ofScientific d.digits d.exponent)

/-- The value of a word in the digits below `base`, most significant first. -/
def ofDigits (base : Nat) (digitValue : Char → Nat) (word : List Char) : Nat :=
  word.foldl (fun n c ↦ base * n + digitValue c) 0

/-- The value of a decimal digit. -/
def digitValue (c : Char) : Nat :=
  c.toNat - '0'.toNat

/-- The value of a word of decimal digits. -/
def natOfDigits (word : List Char) : Nat :=
  ofDigits 10 digitValue word

/-- `whole.fraction * 10 ^ exponent`. -/
def ofParts (whole fraction : List Char) (exponent : Int) : Decimal :=
  ⟨natOfDigits (whole ++ fraction), exponent - fraction.length⟩

end Decimal

end Waypoints
