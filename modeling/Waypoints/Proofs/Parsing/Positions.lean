import Waypoints.Proofs.Parsing.Balance
import Waypoints.Proofs.Parsing.Completeness
/-!
# Reading by position

The same grammar, read from a table of tokens by a position in it. The table has an entry for the
end after those of the tokens; to look at an entry outside of the table is an outcome of its own,
and so is a refusal. Each function takes a bound on the calls that may be open at once, and has no
outcome (`none`) if it needs a call more. Every turn of a loop is a call of its own; a conditional
and a power are part of the call that they are made from. An outcome is that of a run which has not
met the bound, so it is the outcome of the run without one. `EachReader` lists the functions, each
with the parser that reads the same.
-/

set_option autoImplicit false
set_option relaxedAutoImplicit false

namespace Waypoints

/-- What stands at a position of a table: a token or, as `none`, the end. -/
structure Entry where
  token? : Option Token
  offset : Nat

namespace Indexed

/-- Where a reader is. -/
structure State where
  pos : Nat
  /-- How many levels are open. -/
  depth : Nat
  /-- What `advance` has passed over so far. Nothing reads it. -/
  passed : List (Option Token)

/-- Why a reader stops before it has read something. -/
inductive Halt
  | refused (error : ParseError)
  /-- There is no entry at this position. -/
  | outOfBounds (pos : Nat)

end Indexed

/-- A reader of part of a table. -/
abbrev Indexed := ReaderT (Array Entry) (ExceptT Indexed.Halt (StateT Indexed.State Option))

namespace Indexed

/-! ### Single entries and levels -/

/-- The entry at the position reached. -/
def entry : Indexed Entry := do
  let pos := (← get).pos
  match (← read)[pos]? with
  | some entry => return entry
  | none => throw (.outOfBounds pos)

/-- The token at the position reached. -/
def peek? : Indexed (Option Token) := do
  return (← entry).token?

/-- Refuses the text at a byte offset. -/
def refuseAt {α : Type} (offset : Nat) (fault : ParseFault) : Indexed α :=
  throw (.refused ⟨offset, fault⟩)

/-- Refuses the text at the position reached. -/
def refuse {α : Type} (fault : ParseFault) : Indexed α := do
  refuseAt (← entry).offset fault

/-- Passes over the entry at the position reached, and stays there if it is the last one. -/
def advance : Indexed (Option Token) := do
  let found ← peek?
  let entries ← read
  modify fun s ↦ { s with
    pos := if s.pos + 1 < entries.size then s.pos + 1 else s.pos
    passed := s.passed ++ [found] }
  return found

/-- Passes over a mark, or over the end, if it is the next entry, and says whether it was. -/
def eat (wanted : Option Mark) : Indexed Bool := do
  if (← peek?) = wanted.map .mark then
    let _ ← advance
    return true
  else
    return false

/-- Passes over a mark, or over the end, which has to be the next entry. -/
def expect (wanted : Option Mark) : Indexed Unit := do
  if ← eat wanted then
    return ()
  else
    refuse (.expected (wanted.map .mark) (← peek?))

/-- Passes over the next entry if it is of some kind. -/
def take? {β : Type} (kind : Option Token → Option β) : Indexed (Option β) := do
  match kind (← peek?) with
  | none => return none
  | some b =>
    let _ ← advance
    return some b

/-- How many levels are open. -/
def depth : Indexed Nat := do
  return (← get).depth

/-- Changes the number of open levels. -/
def setDepth (f : Nat → Nat) : Indexed Unit :=
  modify fun s ↦ { s with depth := f s.depth }

/-- Opens one more level. -/
def descend : Indexed Unit := do
  setDepth (· + 1)
  if maxNesting < (← depth) then
    refuse .tooDeep
  else
    return ()

/-- Closes one level. -/
def ascend : Indexed Unit :=
  setDepth (· - 1)

/-! ### The grammar -/

/-- There is no outcome if a call is one too many. -/
def cutOff {α : Type} : Indexed α :=
  fun _ _ ↦ none

/-- Reads an expression inside its own level, from a row of `or` and what an expression is. -/
def conditionalOf (disjunction expr : Indexed Expr) : Indexed Expr := do
  let value ← disjunction
  if ← eat (some .kwIf) then
    let condition ← disjunction
    expect (some .kwElse)
    let otherwise ← expr
    return .conditional value condition otherwise
  else
    return value

/-- Reads an atom with its power, from what an atom and a factor are. -/
def powerOf (atom factor : Indexed Expr) : Indexed Expr := do
  let base ← atom
  if ← eat (some .starStar) then
    descend
    let exponent ← factor
    ascend
    return .binary .pow base exponent
  else
    return base

mutual

/-- Reads an expression, which opens a level. -/
def expr : Nat → Indexed Expr
  | 0 => cutOff
  | n + 1 => do
    descend
    let e ← conditionalOf (row n .disjunction) (expr n)
    ascend
    return e

/-- Reads a row of operators. The levels its operators opened are closed at its end. -/
def row : Nat → Row → Indexed Expr
  | 0, _ => cutOff
  | n + 1, r => do
    let first ← operand n r
    let levels ← depth
    let joined ← rowRest n r first
    setDepth fun _ ↦ levels
    return joined

/-- Reads the operators and operands that follow the first operand of a row. -/
def rowRest : Nat → Row → Expr → Indexed Expr
  | 0, _, _ => cutOff
  | n + 1, r, lhs => do
    match ← take? r.joinAt? with
    | none => return lhs
    | some join =>
      descend
      let rhs ← operand n r
      rowRest n r (join lhs rhs)

/-- Reads an operand of a row. -/
def operand : Nat → Row → Indexed Expr
  | 0, _ => cutOff
  | n + 1, .disjunction => row n .conjunction
  | n + 1, .conjunction => inversion n
  | n + 1, .sum => row n .term
  | n + 1, .term => factor n

/-- Reads a negation or a comparison. -/
def inversion : Nat → Indexed Expr
  | 0 => cutOff
  | n + 1 => do
    if ← eat (some .kwNot) then
      descend
      let operand ← inversion n
      ascend
      return .unary .not operand
    else
      comparison n

/-- Reads a sum, or a chain of comparisons between sums. -/
def comparison : Nat → Indexed Expr
  | 0 => cutOff
  | n + 1 => do
    let first ← row n .sum
    match ← links n with
    | [] => return first
    | link :: more => return .compare first (link :: more)

/-- Reads the comparisons that follow a sum. -/
def links : Nat → Indexed (List Link)
  | 0 => cutOff
  | n + 1 => do
    match ← take? CompareOp.at? with
    | none => return []
    | some op =>
      let operand ← row n .sum
      return .mk op operand :: (← links n)

/-- Reads a signed factor or a power. -/
def factor : Nat → Indexed Expr
  | 0 => cutOff
  | n + 1 => do
    match ← take? UnaryOp.signAt? with
    | some op =>
      descend
      let operand ← factor n
      ascend
      return .unary op operand
    | none => powerOf (atom n) (factor n)

/-- Reads a number, a name, a range, or something in brackets. -/
def atom : Nat → Indexed Expr
  | 0 => cutOff
  | n + 1 => do
    let offset := (← entry).offset
    match ← advance with
    | some (.number value) => return .number value
    | some (.name word) =>
      if word = "range" then
        expect (some .parenOpen)
        let args ← sequence n .parenClose
        if args.isEmpty || 3 < args.length then
          refuse (.rangeArity args.length)
        else
          return .range args
      else if (← peek?) = some (.mark .parenOpen) then
        refuse (.notCallable word)
      else
        return .name word
    | some (.mark .parenOpen) => parenthesized n
    | some (.mark .bracketOpen) => bracketed n
    | found => refuseAt offset (.unexpected found)

/-- Reads what follows an opening parenthesis: nothing, one expression, or a tuple. -/
def parenthesized : Nat → Indexed Expr
  | 0 => cutOff
  | n + 1 => do
    if ← eat (some .parenClose) then
      return .tuple []
    else
      let first ← expr n
      if ← eat (some .parenClose) then
        return first
      else
        expect (some .comma)
        return .tuple (first :: (← sequence n .parenClose))

/-- Reads what follows an opening bracket: a list or a comprehension. -/
def bracketed : Nat → Indexed Expr
  | 0 => cutOff
  | n + 1 => do
    if ← eat (some .bracketClose) then
      return .list []
    else
      let first ← expr n
      if (← peek?) = some (.mark .kwFor) then
        let clauses ← clauses n
        expect (some .bracketClose)
        return .comprehension first clauses
      else if ← eat (some .comma) then
        return .list (first :: (← sequence n .bracketClose))
      else
        expect (some .bracketClose)
        return .list [first]

/-- Reads expressions between commas, the last of which may have a comma after it, up to a closing
mark. -/
def sequence : Nat → Mark → Indexed (List Expr)
  | 0, _ => cutOff
  | n + 1, close => do
    if ← eat (some close) then
      return []
    else
      let item ← expr n
      if ← eat (some .comma) then
        return item :: (← sequence n close)
      else
        expect (some close)
        return [item]

/-- Reads clauses for as long as they follow. -/
def clauses : Nat → Indexed (List Clause)
  | 0 => cutOff
  | n + 1 => do
    if ← eat (some .kwFor) then
      let first ← clause n
      return first :: (← clauses n)
    else
      return []

/-- Reads what follows `for`. -/
def clause : Nat → Indexed Clause
  | 0 => cutOff
  | n + 1 => do
    match ← advance with
    | some (.name loopVar) =>
      if reservedNames.contains loopVar then
        refuse (.reservedName loopVar)
      else
        expect (some .kwIn)
        let items ← row n .disjunction
        return .mk loopVar items (← filters n)
    | found => refuse (.expectedVariable found)

/-- Reads the conditions of a clause. -/
def filters : Nat → Indexed (List Expr)
  | 0 => cutOff
  | n + 1 => do
    if ← eat (some .kwIf) then
      let condition ← row n .disjunction
      return condition :: (← filters n)
    else
      return []

end

/-- Reads an expression inside its own level. -/
def conditional (n : Nat) : Indexed Expr :=
  conditionalOf (row n .disjunction) (expr n)

/-- Reads an atom with its power. -/
def power (n : Nat) : Indexed Expr :=
  powerOf (atom n) (factor n)

/-- Reads an expression with the end after it. -/
def whole (n : Nat) : Indexed Expr := do
  let e ← expr n
  expect none
  return e

end Indexed

/-- Reads an expression with the end of the text after it. -/
def Parser.whole (n : Nat) : Parser Expr := do
  let e ← expr n
  expectEnd
  return e

namespace Indexed

/-! ### The functions of the grammar -/

/-- A property holds of each function of the grammar: of its height, which is the number of calls
before it looks at a token; of the least number of tokens that it reads; of the parser, which takes
an allowance of steps; and of the indexed reader, which takes a bound on the calls in it. -/
structure EachReader
    (P : {α : Type} → (height least : Nat) → (Nat → Parser α) → (Nat → Indexed α) → Prop) :
    Prop where
  expr : P 13 1 Parser.expr expr
  conditional : P 12 1 Parser.conditional conditional
  row (r : Row) : P (Parser.rowHeight r) 1 (Parser.row · r) (row · r)
  rowRest (r : Row) (lhs : Expr) : P 1 0 (Parser.rowRest · r lhs) (rowRest · r lhs)
  operand (r : Row) : P (Parser.rowHeight r - 1) 1 (Parser.operand · r) (operand · r)
  inversion : P 8 1 Parser.inversion inversion
  comparison : P 7 1 Parser.comparison comparison
  links : P 1 0 Parser.links links
  factor : P 2 1 Parser.factor factor
  power : P 1 1 Parser.power power
  atom : P 1 1 Parser.atom atom
  parenthesized : P 14 1 Parser.parenthesized parenthesized
  bracketed : P 14 1 Parser.bracketed bracketed
  sequence (close : Mark) : P 14 1 (Parser.sequence · close) (sequence · close)
  clauses : P 1 0 Parser.clauses clauses
  clause : P 1 1 Parser.clause clause
  filters : P 1 0 Parser.filters filters

end Indexed

end Waypoints
