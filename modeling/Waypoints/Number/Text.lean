import Waypoints.Number.Shortest
/-!
# Numbers as text

`text` writes a number positionally with the fewest digits that read back, and `literal` does the
same for coordinates and expression values, where NaN is the wildcard `any`. `jsonText` is the JSON
form, in which a number that is not finite is `null`. The two forms differ only in their `Layout`.
-/

set_option autoImplicit false
set_option relaxedAutoImplicit false

namespace Waypoints.Number

/-- The decisions of a number format. -/
structure Layout where
  /-- Which of two equally near shortest decimals is written. -/
  tie : Tie
  /-- What follows the digits of a whole number. -/
  wholeEnding : String
  /-- Whether a number whose first digit stands at this power of ten is written positionally. -/
  positional : Int → Bool

/-- Numbers in messages are always positional, and a whole number has no point. -/
def plain : Layout :=
  ⟨.up, "", fun _ ↦ true⟩

/-- JSON numbers keep a point, and are positional from `10 ^ -5` up to below `10 ^ 16`. -/
def json : Layout :=
  ⟨.even, ".0", fun power ↦ -5 ≤ power && power ≤ 15⟩

/-- A word of zeros. -/
def zeros (n : Nat) : List Char :=
  List.replicate n '0'

namespace Layout

/-- Digits with the point in its place. -/
def positionalText (layout : Layout) (d : Digits) : String :=
  if d.place ≤ 0 then
    String.ofList ('0' :: '.' :: zeros (-d.place).toNat ++ d.digits)
  else if d.digits.length ≤ d.place then
    String.ofList (d.digits ++ zeros (d.place - d.digits.length).toNat) ++ layout.wholeEnding
  else
    String.ofList (d.digits.take d.place.toNat ++ '.' :: d.digits.drop d.place.toNat)

/-- Digits with the point after the first one, and the power of ten with its sign. -/
def scientificText (d : Digits) : String :=
  let tail := d.digits.drop 1
  let point := if tail.isEmpty then tail else '.' :: tail
  let power := d.place - 1
  String.ofList (d.digits.take 1 ++ point) ++ (if 0 ≤ power then "e+" else "e") ++ toString power

/-- The text of a positive magnitude. -/
def write (layout : Layout) (d : Digits) : String :=
  if layout.positional (d.place - 1) then layout.positionalText d else scientificText d

/-- The text of zero. -/
def zero (layout : Layout) : String :=
  "0" ++ layout.wholeEnding

end Layout

/-- The mark of a sign. -/
def signMark : Float.Model.UnpackedFloat.Sign → String
  | .positive => ""
  | .negative => "-"

/-- The text of a number in a layout, `none` if it is not finite. -/
def Layout.text? (layout : Layout) (x : Float) : Option String :=
  match x.toModel.unpack with
  | .finite sign mantissa exponent _ =>
    some (signMark sign ++ layout.write (shortest layout.tie x mantissa exponent))
  | .zero sign => some (signMark sign ++ layout.zero)
  | .infinity _ => none
  | .notANumber => none

/-- The text of a number in a message. -/
def text (x : Float) : String :=
  match plain.text? x with
  | some written => written
  | none => if x.isNaN then "NaN" else if x < 0 then "-inf" else "inf"

/-- The text of a coordinate or an expression value, in which NaN is the wildcard. -/
def literal (x : Float) : String :=
  if x.isNaN then "any" else text x

/-- The JSON form of a number. -/
def jsonText (x : Float) : String :=
  (json.text? x).getD "null"

end Waypoints.Number
