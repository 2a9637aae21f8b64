/-!
# Whole numbers among the binary64 numbers

`floor` and `ceil` are read off the sign, mantissa and exponent of a number, so that a proof can
compute them. `isWhole` is the test for an integer, and `ofNat` the number of a count.
-/

set_option autoImplicit false
set_option relaxedAutoImplicit false

namespace Waypoints.Number

/-- The binary64 number nearest to a count. It is exact up to `2 ^ 53`. -/
def ofNat (n : Nat) : Float :=
  Float.ofModel (.ofNat n)

/-- The largest whole number that is at most `x`. A zero keeps its sign, and an infinity or a NaN
is its own floor. -/
def floor (x : Float) : Float :=
  match x.toModel.unpack with
  | .finite sign mantissa exponent _ =>
    if 0 ≤ exponent then x
    else
      let unit := Nat.pow 2 (-exponent).toNat
      match sign with
      | .positive => ofNat (mantissa / unit)
      | .negative => -ofNat ((mantissa + (unit - 1)) / unit)
  | _ => x

/-- The smallest whole number that is at least `x`. -/
def ceil (x : Float) : Float :=
  -floor (-x)

/-- Finite, and with no fractional part. -/
def isWhole (x : Float) : Bool :=
  x.isFinite && floor x == x

end Waypoints.Number
