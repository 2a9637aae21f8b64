import Waypoints.Expr.Basic
import Waypoints.Expr.Lexer
/-!
# Parsing expressions

The grammar, loosest first:

```text
expr        := disjunction [ if disjunction else expr ]
disjunction := conjunction { or conjunction }
conjunction := inversion { and inversion }
inversion   := not inversion | comparison
comparison  := sum { (< | <= | > | >= | == | !=) sum }
sum         := term { (+ | -) term }
term        := factor { (* | / | // | %) factor }
factor      := (+ | -) factor | atom [ ** factor ]
atom        := number | name | range ( exprs )
             | ( ) | ( expr ) | ( expr , [ exprs ] )
             | [ ] | [ exprs ] | [ expr clause { clause } ]
exprs       := expr { , expr } [ , ]
clause      := for name in disjunction { if disjunction }
```

The four rows of operators that associate to the left are one function, `row`, indexed by `Row`.
A parser is a function of a `Cursor`, which holds the tokens ahead and counts the open levels; a
row counts one level for each of its operators. The functions take an allowance of steps, of which
`Expr.parse` gives more than any text can use.
-/

set_option autoImplicit false
set_option relaxedAutoImplicit false

namespace Waypoints

/-- The names that belong to the board; no clause may bind them. -/
def reservedNames : List String :=
  ["x", "y", "w", "h", "any", "range"]

/-- A place in an expression. -/
structure Cursor where
  /-- The tokens ahead. -/
  ahead : List Lexeme
  /-- The byte offset of the end of the text. -/
  stop : Nat
  /-- How many levels are open. -/
  depth : Nat
  deriving DecidableEq

namespace Cursor

/-- The token at a place, `none` at the end. -/
def peek? (c : Cursor) : Option Token :=
  c.ahead.head?.map (·.token)

/-- The byte offset of a place. -/
def offset (c : Cursor) : Nat :=
  match c.ahead with
  | [] => c.stop
  | l :: _ => l.offset

/-- The place after one token. The end has no place after it. -/
def advance (c : Cursor) : Cursor :=
  { c with ahead := c.ahead.tail }

end Cursor

/-- A reader of part of an expression, which moves the cursor or refuses the text. -/
abbrev Parser := StateT Cursor (Except ParseError)

namespace Parser

/-! ### Single tokens and levels -/

/-- Refuses the text at the place reached. -/
def refuse {α : Type} (fault : ParseFault) : Parser α := do
  throw ⟨(← get).offset, fault⟩

/-- The token at the place reached. -/
def peek? : Parser (Option Token) := do
  return (← get).peek?

/-- Passes over one token. -/
def advance : Parser Unit :=
  modify Cursor.advance

/-- Passes over a mark if it is the next token, and says whether it was. -/
def eat (m : Mark) : Parser Bool := do
  if (← peek?) = some (.mark m) then
    advance
    return true
  else
    return false

/-- Passes over a mark, which has to be the next token. -/
def expect (m : Mark) : Parser Unit := do
  if ← eat m then
    return ()
  else
    refuse (.expected (some (.mark m)) (← peek?))

/-- Requires the end of the text. -/
def expectEnd : Parser Unit := do
  match ← peek? with
  | none => return ()
  | some token => refuse (.expected none (some token))

/-- Opens one more level. -/
def descend : Parser Unit := do
  modify fun c ↦ { c with depth := c.depth + 1 }
  if maxNesting < (← get).depth then
    refuse .tooDeep
  else
    return ()

/-- Reads something one level down. -/
def nested {α : Type} (p : Parser α) : Parser α := do
  descend
  let a ← p
  modify fun c ↦ { c with depth := c.depth - 1 }
  return a

end Parser

/-! ### Operators -/

/-- The rows of the grammar whose operators associate to the left. -/
inductive Row
  | disjunction
  | conjunction
  | sum
  | term
  deriving DecidableEq, Repr

namespace Row

/-- The operators of a row. -/
def join? : Row → Mark → Option (Expr → Expr → Expr)
  | disjunction, .kwOr => some (.logic .or)
  | conjunction, .kwAnd => some (.logic .and)
  | sum, .plus => some (.binary .add)
  | sum, .minus => some (.binary .sub)
  | term, .star => some (.binary .mul)
  | term, .slash => some (.binary .div)
  | term, .slashSlash => some (.binary .floorDiv)
  | term, .percent => some (.binary .mod)
  | _, _ => none

/-- What the token at a place joins, if it is an operator of the row. -/
def joinAt? (row : Row) : Option Token → Option (Expr → Expr → Expr)
  | some (.mark m) => row.join? m
  | _ => none

end Row

/-- The comparison that a mark stands for. -/
def CompareOp.ofMark? : Mark → Option CompareOp
  | .less => some .lt
  | .lessEq => some .le
  | .greater => some .gt
  | .greaterEq => some .ge
  | .eqEq => some .eq
  | .notEq => some .ne
  | _ => none

/-- The comparison that the token at a place stands for. -/
def CompareOp.at? : Option Token → Option CompareOp
  | some (.mark m) => ofMark? m
  | _ => none

/-- The sign that the token at a place stands for. -/
def UnaryOp.signAt? : Option Token → Option UnaryOp
  | some (.mark .plus) => some .plus
  | some (.mark .minus) => some .minus
  | _ => none

/-! ### The grammar -/

namespace Parser

mutual

/-- Reads an expression. -/
def expr : Nat → Parser Expr
  | 0 => refuse .stalled
  | n + 1 => nested do
    let value ← row n .disjunction
    if ← eat .kwIf then
      let condition ← row n .disjunction
      expect .kwElse
      let otherwise ← expr n
      return .conditional value condition otherwise
    else
      return value

/-- Reads a row of operators. The levels its operators opened are closed at its end. -/
def row : Nat → Row → Parser Expr
  | 0, _ => refuse .stalled
  | n + 1, r => do
    let first ← operand n r
    let depth := (← get).depth
    let joined ← rowRest n r first
    modify fun c ↦ { c with depth := depth }
    return joined

/-- Reads the operators and operands that follow the first operand of a row. -/
def rowRest : Nat → Row → Expr → Parser Expr
  | 0, _, _ => refuse .stalled
  | n + 1, r, lhs => do
    match r.joinAt? (← peek?) with
    | none => return lhs
    | some join =>
      advance
      descend
      let rhs ← operand n r
      rowRest n r (join lhs rhs)

/-- Reads an operand of a row. -/
def operand : Nat → Row → Parser Expr
  | 0, _ => refuse .stalled
  | n + 1, .disjunction => row n .conjunction
  | n + 1, .conjunction => inversion n
  | n + 1, .sum => row n .term
  | n + 1, .term => factor n

/-- Reads a negation or a comparison. -/
def inversion : Nat → Parser Expr
  | 0 => refuse .stalled
  | n + 1 => do
    if ← eat .kwNot then
      return .unary .not (← nested (inversion n))
    else
      comparison n

/-- Reads a sum, or a chain of comparisons between sums. -/
def comparison : Nat → Parser Expr
  | 0 => refuse .stalled
  | n + 1 => do
    let first ← row n .sum
    match ← links n with
    | [] => return first
    | link :: more => return .compare first (link :: more)

/-- Reads the comparisons that follow a sum. -/
def links : Nat → Parser (List Link)
  | 0 => refuse .stalled
  | n + 1 => do
    match CompareOp.at? (← peek?) with
    | none => return []
    | some op =>
      advance
      let operand ← row n .sum
      return .mk op operand :: (← links n)

/-- Reads a signed factor, or an atom with its power. A power binds more tightly than a sign on
its left. -/
def factor : Nat → Parser Expr
  | 0 => refuse .stalled
  | n + 1 => do
    match UnaryOp.signAt? (← peek?) with
    | some op =>
      advance
      return .unary op (← nested (factor n))
    | none =>
      let base ← atom n
      if ← eat .starStar then
        return .binary .pow base (← nested (factor n))
      else
        return base

/-- Reads a number, a name, a range, or something in brackets. -/
def atom : Nat → Parser Expr
  | 0 => refuse .stalled
  | n + 1 => do
    match ← peek? with
    | some (.number value) =>
      advance
      return .number value
    | some (.name word) =>
      advance
      if word = "range" then
        expect .parenOpen
        let args ← sequence n .parenClose
        if args.isEmpty || 3 < args.length then
          refuse (.rangeArity args.length)
        else
          return .range args
      else if (← peek?) = some (.mark .parenOpen) then
        refuse (.notCallable word)
      else
        return .name word
    | some (.mark .parenOpen) =>
      advance
      parenthesized n
    | some (.mark .bracketOpen) =>
      advance
      bracketed n
    | found => refuse (.unexpected found)

/-- Reads what follows an opening parenthesis: nothing, one expression, or a tuple. -/
def parenthesized : Nat → Parser Expr
  | 0 => refuse .stalled
  | n + 1 => do
    if ← eat .parenClose then
      return .tuple []
    else
      let first ← expr n
      if ← eat .parenClose then
        return first
      else
        expect .comma
        return .tuple (first :: (← sequence n .parenClose))

/-- Reads what follows an opening bracket: a list or a comprehension. -/
def bracketed : Nat → Parser Expr
  | 0 => refuse .stalled
  | n + 1 => do
    if ← eat .bracketClose then
      return .list []
    else
      let first ← expr n
      match ← clauses n with
      | clause :: more =>
        expect .bracketClose
        return .comprehension first (clause :: more)
      | [] =>
        if ← eat .comma then
          return .list (first :: (← sequence n .bracketClose))
        else
          expect .bracketClose
          return .list [first]

/-- Reads expressions between commas, the last of which may have a comma after it, up to a closing
mark. -/
def sequence : Nat → Mark → Parser (List Expr)
  | 0, _ => refuse .stalled
  | n + 1, close => do
    if ← eat close then
      return []
    else
      let item ← expr n
      if ← eat .comma then
        return item :: (← sequence n close)
      else
        expect close
        return [item]

/-- Reads clauses for as long as they follow. -/
def clauses : Nat → Parser (List Clause)
  | 0 => refuse .stalled
  | n + 1 => do
    if ← eat .kwFor then
      let first ← clause n
      return first :: (← clauses n)
    else
      return []

/-- Reads what follows `for`. -/
def clause : Nat → Parser Clause
  | 0 => refuse .stalled
  | n + 1 => do
    let found ← peek?
    advance
    match found with
    | some (.name loopVar) =>
      if reservedNames.contains loopVar then
        refuse (.reservedName loopVar)
      else
        expect .kwIn
        let items ← row n .disjunction
        return .mk loopVar items (← filters n)
    | _ => refuse (.expectedVariable found)

/-- Reads the conditions of a clause. -/
def filters : Nat → Parser (List Expr)
  | 0 => refuse .stalled
  | n + 1 => do
    if ← eat .kwIf then
      let condition ← row n .disjunction
      return condition :: (← filters n)
    else
      return []

end

end Parser

namespace Expr

/-- The place at the front of a text's tokens. -/
def start (text : String) (tokens : List Lexeme) : Cursor :=
  ⟨tokens, text.utf8ByteSize, 0⟩

/-- More steps than a parse of so many tokens can use. -/
def parseSteps (tokens : List Lexeme) : Nat :=
  20 * (tokens.length + 1)

/-- Reads the tokens of a text, all of which have to make up one expression. -/
def parseTokens (text : String) (tokens : List Lexeme) : Except ParseError Expr := do
  let whole : Parser Expr := do
    let e ← Parser.expr (parseSteps tokens)
    Parser.expectEnd
    return e
  whole.run' (start text tokens)

/-- Reads a text, which has to be one expression. -/
def parse (text : String) : Except ParseError Expr := do
  parseTokens text (← lexemes 0 text.toList)

end Expr

end Waypoints
