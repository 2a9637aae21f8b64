import Waypoints.Number.Whole
/-!
# Powers

`power` is exponentiation of binary64 numbers. The powers of a zero and the powers with a zero as
exponent are read off the operands; the sign of a zero counts only under an odd exponent. The powers
of other numbers are those of the platform.
-/

set_option autoImplicit false
set_option relaxedAutoImplicit false

namespace Waypoints.Number

/-- Whether a number is whole and no multiple of two. -/
def isOdd (x : Float) : Bool :=
  match x.toModel.unpack with
  | .finite _ mantissa exponent _ =>
    let unit := Nat.pow 2 (-exponent).toNat
    exponent ≤ 0 && mantissa % unit == 0 && mantissa / unit % 2 == 1
  | _ => false

/-- A power of a zero, with an exponent that is not zero: the zero itself under an odd exponent and
the positive zero under another one, or their inverse if the exponent is negative. -/
def powerOfZero (zero exponent : Float) : Float :=
  let root := if isOdd exponent then zero else 0
  if exponent.isNaN then exponent
  else if exponent < 0 then 1 / root
  else root

/-- The power of a number. -/
def power (base exponent : Float) : Float :=
  if exponent == 0 then 1
  else if base == 0 then powerOfZero base exponent
  else base.pow exponent

end Waypoints.Number
