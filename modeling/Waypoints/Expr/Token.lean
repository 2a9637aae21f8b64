import Waypoints.Number.Text
/-!
# Tokens of the expression language

A token is a number, a name, or one of finitely many `Mark`s: keywords, punctuation and operators.
Every mark has one spelling. The end of an expression is no token; a place in an expression is an
`Option Token`, and `describe` names both for messages.
-/

set_option autoImplicit false
set_option relaxedAutoImplicit false

namespace Waypoints

/-- A token with a fixed spelling. -/
inductive Mark
  | kwAnd | kwOr | kwNot | kwIf | kwElse | kwFor | kwIn
  | parenOpen | parenClose | bracketOpen | bracketClose | comma
  | plus | minus | star | starStar | slash | slashSlash | percent
  | less | lessEq | greater | greaterEq | eqEq | notEq
  deriving DecidableEq, Repr

namespace Mark

/-- How a mark is written. -/
def spelling : Mark → String
  | kwAnd => "and"
  | kwOr => "or"
  | kwNot => "not"
  | kwIf => "if"
  | kwElse => "else"
  | kwFor => "for"
  | kwIn => "in"
  | parenOpen => "("
  | parenClose => ")"
  | bracketOpen => "["
  | bracketClose => "]"
  | comma => ","
  | plus => "+"
  | minus => "-"
  | star => "*"
  | starStar => "**"
  | slash => "/"
  | slashSlash => "//"
  | percent => "%"
  | less => "<"
  | lessEq => "<="
  | greater => ">"
  | greaterEq => ">="
  | eqEq => "=="
  | notEq => "!="

/-- The marks that are spelled like names. -/
def keywords : List Mark :=
  [kwAnd, kwOr, kwNot, kwIf, kwElse, kwFor, kwIn]

/-- The other marks, each after every longer mark that begins with it. -/
def symbols : List Mark :=
  [starStar, slashSlash, lessEq, greaterEq, eqEq, notEq, parenOpen, parenClose, bracketOpen,
    bracketClose, comma, plus, minus, star, slash, percent, less, greater]

/-- The keyword with a given spelling. -/
def ofWord? (word : String) : Option Mark :=
  keywords.find? (·.spelling == word)

end Mark

/-- A unit of an expression's text. -/
inductive Token
  | number (value : Float)
  | name (word : String)
  | mark (mark : Mark)
  deriving DecidableEq

namespace Token

/-- How a token is named in messages. -/
def describe : Token → String
  | number value => "number " ++ Number.text value
  | name word => "name `" ++ word ++ "`"
  | mark m => "`" ++ m.spelling ++ "`"

/-- How the token at a place, or the end of the expression, is named in messages. -/
def describe? : Option Token → String
  | some token => token.describe
  | none => "end of expression"

end Token

/-- A token together with the byte offset at which it starts. -/
structure Lexeme where
  token : Token
  offset : Nat
  deriving DecidableEq

end Waypoints
