import Waypoints.Number.Decimal
/-!
# The fewest digits that read back

A finite number is written with the fewest significant digits whose nearest binary64 number is the
number itself. For each number of digits at most the two neighbours of the exact value on that
decimal grid are tried, the nearer one first; `Tie` says which comes first when both are as near. A
number that no short grid answers is written exactly, which always reads back.
-/

set_option autoImplicit false
set_option relaxedAutoImplicit false

namespace Waypoints.Number

/-- Which of two equally near neighbours is taken. -/
inductive Tie
  | up
  | even
  deriving DecidableEq, Repr

/-- Significant digits, and the place of the point counted from the left of the first one:
`0.d₁d₂… * 10 ^ place`. -/
structure Digits where
  digits : List Char
  place : Int
  deriving DecidableEq, Repr

/-- A positive magnitude `mantissa * 2 ^ exponent` as a fraction. -/
def fraction (mantissa : Nat) (exponent : Int) : Nat × Nat :=
  if 0 ≤ exponent then (mantissa * Nat.pow 2 exponent.toNat, 1)
  else (mantissa, Nat.pow 2 (-exponent).toNat)

/-- How many zeros follow the point of `num / den`, for a value below one. -/
def zerosAfterPoint : Nat → Nat → Nat → Nat
  | 0, _, _ => 0
  | fuel + 1, num, den =>
    if den ≤ 10 * num then 0 else zerosAfterPoint fuel (10 * num) den + 1

/-- The place of the point of `num / den`, counted from its first significant digit. -/
def leadingPlace (num den : Nat) : Int :=
  if den ≤ num then (Nat.toDigits 10 (num / den)).length
  else -(zerosAfterPoint den.log2 num den : Int)

/-- The neighbours of `num / den` among the multiples of `10 ^ unit`, the nearer first. The value is
a multiple of some unit by `mantissa`; a neighbour that is further away than this unit is left
out, since a number between the two would be nearer to it. -/
def neighbours (tie : Tie) (mantissa num den : Nat) (unit : Int) : List Nat :=
  let scaled := num * Nat.pow 10 (-unit).toNat
  let scale := den * Nat.pow 10 unit.toNat
  let below := scaled / scale
  let down := scaled % scale
  let up := scale - down
  let upFirst : Bool := match tie with
    | .up => up ≤ down
    | .even => up < down || (up == down && below % 2 == 1)
  let lower := if down * mantissa ≤ scaled then [below] else []
  let upper := if up * mantissa ≤ scaled then [below + 1] else []
  if upFirst then upper ++ lower else lower ++ upper

/-- The exact decimal value of `mantissa * 2 ^ exponent`. -/
def exactDecimal (mantissa : Nat) (exponent : Int) : Decimal :=
  if 0 ≤ exponent then ⟨mantissa * Nat.pow 2 exponent.toNat, 0⟩
  else ⟨mantissa * Nat.pow 5 (-exponent).toNat, exponent⟩

/-- The decimal with the fewest digits that reads back as the magnitude of `x`, which is
`mantissa * 2 ^ exponent`. -/
def shortestDecimal (tie : Tie) (x : Float) (mantissa : Nat) (exponent : Int) : Decimal :=
  let (num, den) := fraction mantissa exponent
  let place := leadingPlace num den
  let magnitude := x.abs
  let hit (count : Nat) : Option Decimal :=
    let unit := place - (count + 1)
    ((neighbours tie mantissa num den unit).map (Decimal.mk · unit)).find? (·.toFloat == magnitude)
  ((List.range 17).findSome? hit).getD (exactDecimal mantissa exponent)

/-- Drops the zeros at the right end of a word of digits. -/
def trimZeros (word : List Char) : List Char :=
  (word.reverse.dropWhile (· == '0')).reverse

/-- The significant digits of a decimal, without zeros at the right end. -/
def Digits.ofDecimal (d : Decimal) : Digits :=
  let word := Nat.toDigits 10 d.digits
  ⟨trimZeros word, word.length + d.exponent⟩

/-- The fewest significant digits that read back as the magnitude of `x`. -/
def shortest (tie : Tie) (x : Float) (mantissa : Nat) (exponent : Int) : Digits :=
  .ofDecimal (shortestDecimal tie x mantissa exponent)

end Waypoints.Number
