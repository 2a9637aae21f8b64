import Waypoints.Expr.Basic
import Waypoints.Expr.ParseError
import Waypoints.Expr.Value
/-!
# What can be wrong with an expression

An `EvalFault` is a reason why a parsed expression has no value. An `ExprError` names an expression
and says what is wrong with it: its text, its evaluation, or the shape of its value.
-/

set_option autoImplicit false
set_option relaxedAutoImplicit false

namespace Waypoints

/-- The greatest number of items of one range. -/
def maxRangeLength : Nat := 4096

/-- The greatest number of values that one evaluation may build. -/
def maxValues : Nat := 65536

/-- A reason why an expression has no value. -/
inductive EvalFault
  /-- `any` where wildcards are not permitted. -/
  | wildcardNotAllowed
  /-- A name that is neither the board's nor a clause's. -/
  | unknownName (word : String)
  /-- A clause over something that is no sequence. -/
  | notIterable (kind : Kind)
  /-- A sign before a sequence. -/
  | badOperand (op : UnaryOp) (kind : Kind)
  /-- An arithmetic operator between these kinds. -/
  | unsupportedOperands (op : BinaryOp) (lhs rhs : Kind)
  /-- An order between these kinds. -/
  | unordered (lhs rhs : Kind)
  /-- A range whose argument is no whole number. -/
  | rangeNeedsIntegers (arg : Value)
  /-- A range with no argument or with more than three. -/
  | rangeArity
  /-- A range that stays where it is. -/
  | zeroStep
  | divisionByZero
  | moduloByZero
  /-- An operation on numbers that gives no number. -/
  | notANumber (op : BinaryOp) (a b : Float)
  /-- A range of more than `maxRangeLength` items. -/
  | rangeTooLarge (length : Nat)
  /-- More than `maxValues` values in one evaluation. -/
  | tooManyValues

/-- What is wrong with an expression. -/
inductive ExprCause
  /-- The text is no expression. -/
  | malformed (error : ParseError)
  /-- The evaluation fails. -/
  | failed (fault : EvalFault)
  /-- The value is neither a coordinate nor a path nor several paths. -/
  | misshapen (value : Value)

/-- An expression's text and what is wrong with it. -/
structure ExprError where
  source : String
  cause : ExprCause

/-- The classes of errors of expressions. -/
inductive ExprErrorClass
  | parsing
  | shape
  | wildcardNotAllowed
  | unknownName
  | type
  | arithmetic
  | rangeTooLarge
  | tooManyValues
  deriving DecidableEq, Repr

namespace EvalFault

/-- The class of a fault. -/
def errorClass : EvalFault → ExprErrorClass
  | wildcardNotAllowed => .wildcardNotAllowed
  | unknownName _ => .unknownName
  | notIterable _ => .type
  | badOperand _ _ => .type
  | unsupportedOperands _ _ _ => .type
  | unordered _ _ => .type
  | rangeNeedsIntegers _ => .type
  | rangeArity => .type
  | zeroStep => .arithmetic
  | divisionByZero => .arithmetic
  | moduloByZero => .arithmetic
  | notANumber _ _ _ => .arithmetic
  | rangeTooLarge _ => .rangeTooLarge
  | tooManyValues => .tooManyValues

/-- How an operator with one operand is named in messages. -/
def operatorName : UnaryOp → String
  | .plus => "unary +"
  | .minus => "unary -"
  | .not => "not"

/-- The wording of a fault of an expression with the text `source`. -/
def message (source : String) : EvalFault → String
  | wildcardNotAllowed =>
    subject ++ " uses `any`, which is only allowed in patterns"
  | unknownName word => subject ++ " references unknown name `" ++ word ++ "`"
  | notIterable kind => typeError ++ "cannot iterate over a " ++ kind.name
  | badOperand op kind =>
    typeError ++ "bad operand for " ++ operatorName op ++ ": " ++ kind.name
  | unsupportedOperands op lhs rhs =>
    typeError ++ "unsupported operands for " ++ op.name ++ ": " ++ lhs.name ++ " and " ++ rhs.name
  | unordered lhs rhs => typeError ++ "cannot order " ++ lhs.name ++ " and " ++ rhs.name
  | rangeNeedsIntegers arg => typeError ++ "range expects integers, got " ++ arg.text
  | rangeArity => typeError ++ "range takes 1 to 3 arguments"
  | zeroStep => arithmeticError ++ "range step must not be zero"
  | divisionByZero => arithmeticError ++ "division by zero"
  | moduloByZero => arithmeticError ++ "modulo by zero"
  | notANumber op a b =>
    arithmeticError ++ op.name ++ " of " ++ Number.text a ++ " and " ++ Number.text b ++
      " is not a number"
  | rangeTooLarge length =>
    subject ++ " builds a range of " ++ toString length ++ " items (limit " ++
      toString maxRangeLength ++ ")"
  | tooManyValues => subject ++ " builds more than " ++ toString maxValues ++ " values"
where
  subject := "waypoint expression `" ++ source ++ "`"
  typeError := "type error in " ++ subject ++ ": "
  arithmeticError := "arithmetic error in " ++ subject ++ ": "

end EvalFault

/-- The code of a class of errors. -/
def ExprErrorClass.code : ExprErrorClass → String
  | parsing => "EXPR_SYNTAX"
  | shape => "EXPR_SHAPE"
  | wildcardNotAllowed => "EXPR_WILDCARD_NOT_ALLOWED"
  | unknownName => "EXPR_UNKNOWN_NAME"
  | type => "EXPR_TYPE"
  | arithmetic => "EXPR_ARITHMETIC"
  | rangeTooLarge => "EXPR_RANGE_TOO_LARGE"
  | tooManyValues => "EXPR_TOO_MANY_VALUES"

/-- Whether the errors of a class come from a name rather than from the text or the values. -/
def ExprErrorClass.isBinding : ExprErrorClass → Bool
  | wildcardNotAllowed => true
  | unknownName => true
  | _ => false

namespace ExprError

/-- The class of an error. -/
def errorClass (e : ExprError) : ExprErrorClass :=
  match e.cause with
  | .malformed _ => .parsing
  | .failed fault => fault.errorClass
  | .misshapen _ => .shape

/-- The wording of an error. -/
def message (e : ExprError) : String :=
  match e.cause with
  | .malformed error =>
    "syntax error in waypoint expression `" ++ e.source ++ "` at offset " ++
      toString error.offset ++ ": " ++ error.fault.message
  | .failed fault => fault.message e.source
  | .misshapen value =>
    "waypoint expression `" ++ e.source ++ "` produced " ++ value.text ++
      "; expected a coordinate, a non-empty list of coordinates or a non-empty list of " ++
      "non-empty lists of coordinates"

end ExprError

end Waypoints
