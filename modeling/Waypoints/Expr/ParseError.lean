import Waypoints.Expr.Token
/-!
# What can be wrong with the text of an expression

A `ParseFault` says what is wrong and a `ParseError` also where, as a byte offset.
-/

set_option autoImplicit false
set_option relaxedAutoImplicit false

namespace Waypoints

/-- The greatest number of levels of an expression that may be open at once. -/
def maxNesting : Nat := 64

/-- A reason to refuse a text. -/
inductive ParseFault
  /-- No token starts with this character. -/
  | unexpectedCharacter (c : Char)
  /-- No expression starts with this token. -/
  | unexpected (found : Option Token)
  /-- One token is required and another one found. -/
  | expected (wanted found : Option Token)
  /-- A clause has to name its variable. -/
  | expectedVariable (found : Option Token)
  /-- A clause may not bind a name that belongs to the board. -/
  | reservedName (word : String)
  /-- Only `range` takes arguments. -/
  | notCallable (word : String)
  /-- `range` with no argument or with more than three. -/
  | rangeArity (count : Nat)
  /-- More than `maxNesting` levels are open. -/
  | tooDeep
  /-- The allowance of steps is spent. A parse is given more steps than any text can use. -/
  | stalled
  deriving DecidableEq

/-- The wording of a fault. -/
def ParseFault.message : ParseFault → String
  | unexpectedCharacter c => "unexpected character `" ++ c.toString ++ "`"
  | unexpected found => "unexpected " ++ Token.describe? found
  | expected wanted found =>
    "expected " ++ Token.describe? wanted ++ ", found " ++ Token.describe? found
  | expectedVariable found => "expected loop variable, found " ++ Token.describe? found
  | reservedName word => "cannot rebind reserved name `" ++ word ++ "`"
  | notCallable word => "`" ++ word ++ "` is not callable"
  | rangeArity count => "range takes 1 to 3 arguments, found " ++ toString count
  | tooDeep => "expression nests deeper than " ++ toString maxNesting ++ " levels"
  | stalled => "expression is not read to its end"

/-- A fault and the byte offset it is reported at. -/
structure ParseError where
  offset : Nat
  fault : ParseFault
  deriving DecidableEq

end Waypoints
