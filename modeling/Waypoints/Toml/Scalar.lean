import Waypoints.Toml.Quoted
/-!
# Unquoted values

Numbers, truth values, dates and times are words without quotes. `Reader.word` takes a word off the
front of a text and `Value.ofWord?` reads it. A word is first sorted by its outline: an integer
shows itself by a letter after its first zero, or by having nothing but an underscore right after
its first digits. Only then are its digits read, so that a word may have the outline of an integer
and be none.
-/

set_option autoImplicit false
set_option relaxedAutoImplicit false

namespace Waypoints.Toml

/-- The characters of unquoted values: all but those that separate values from what is around
them. -/
def isWordChar (c : Char) : Bool :=
  !(isBlank c || ['\n', '\r', '#', '=', ',', '[', ']', '\x7b', '\x7d'].contains c)

/-- Whether a text goes on with an unquoted value after blanks. Points and quotes do not go on. -/
def continuesWord (cs : List Char) : Bool :=
  match cs.dropWhile isBlank with
  | c :: _ => isWordChar c && !(c == '.' || c == '"' || c == '\'')
  | [] => false

/-- Splits an unquoted value off the front of a text. Blanks belong to it if it goes on after
them. -/
def splitWord : List Char → List Char × List Char
  | [] => ([], [])
  | c :: cs =>
    if isWordChar c || (isBlank c && continuesWord cs) then
      let (word, rest) := splitWord cs
      (c :: word, rest)
    else ([], c :: cs)

/-! ### Numbers -/

/-- The digits of a number whose underscores are left out. -/
def withoutBars (word : List Char) : List Char :=
  word.filter (· != '_')

/-- Whether every underscore of a word has a digit on its left and on its right, where `left` says
whether a digit stands on the left of the word itself. -/
def barsSeparateAfter (isDigit : Char → Bool) : (left : Bool) → List Char → Bool
  | _, [] => true
  | left, '_' :: cs => left && cs.head?.any isDigit && barsSeparateAfter isDigit false cs
  | _, c :: cs => barsSeparateAfter isDigit (isDigit c) cs

/-- Whether every underscore of a word has a digit on its left and on its right. -/
def barsSeparate (isDigit : Char → Bool) (word : List Char) : Bool :=
  barsSeparateAfter isDigit false word

/-- The sign of a word, if it has one, and the word after it. -/
def splitSign : List Char → Option Char × List Char
  | '-' :: cs => (some '-', cs)
  | '+' :: cs => (some '+', cs)
  | cs => (none, cs)

/-- The digits of a word that holds nothing else and is not empty. -/
def digits? (isDigit : Char → Bool) (word : List Char) : Option (List Char) :=
  if !word.isEmpty && word.all isDigit then some word else none

/-- The power of ten at the end of a number. It may be missing. -/
def power? : List Char → Option Int
  | [] => some 0
  | c :: cs => do
    guard (c == 'e' || c == 'E')
    let (sign, cs) := splitSign cs
    let n := Decimal.natOfDigits (← digits? Char.isDigit cs)
    return if sign == some '-' then -n else n

/-- The digits after the point of a number and its power of ten. Either may be missing. -/
def tail? : List Char → Option (List Char × Int)
  | '.' :: cs => do
    let fraction ← digits? Char.isDigit (cs.takeWhile Char.isDigit)
    return (fraction, ← power? (cs.dropWhile Char.isDigit))
  | cs => do return ([], ← power? cs)

/-- Whether some digits start with a zero that is not the only one of them. -/
def hasNeedlessZero (digits : List Char) : Bool :=
  digits.head? == some '0' && digits.length != 1

namespace Value

/-- An integer of a word that has the outline of one. -/
def ofDigits (base : Nat) (negative : Bool) (word : List Char) : Value :=
  match digits? (isDigitOf base) word with
  | some digits =>
    let n : Int := natOfWord base digits
    ofInteger (if negative then -n else n)
  | none => illegible

/-- An integer without a letter that shows its base. Underscores may stand between digits of any
base. -/
def ofIntegerWord? (word : List Char) : Option Value := do
  let (sign, word) := splitSign word
  let digits := withoutBars word
  guard (barsSeparate (isDigitOf 16) word && !hasNeedlessZero digits)
  return ofDigits 10 (sign == some '-') digits

/-- A number with a point or a power of ten. Underscores may stand between decimal digits. -/
def ofFloatWord? (word : List Char) : Option Value := do
  let (sign, word) := splitSign word
  guard (barsSeparate Char.isDigit word)
  let digits := withoutBars word
  let whole ← digits? Char.isDigit (digits.takeWhile Char.isDigit)
  guard !hasNeedlessZero whole
  let (fraction, power) ← tail? (digits.dropWhile Char.isDigit)
  return ofDecimal (sign == some '-') (.ofParts whole fraction power)

/-- A decimal number. A point or a power of ten after its first digits makes it a float; otherwise
it is an integer if nothing or an underscore follows them. -/
def ofDecimalWord? (word : List Char) : Option Value :=
  let (_, body) := splitSign word
  let tail := body.dropWhile Char.isDigit
  if tail.contains ' ' then none
  else if tail.any fun c ↦ c == '.' || c == 'e' || c == 'E' then ofFloatWord? word
  else if !body.isEmpty && (tail.isEmpty || tail.head? == some '_') then ofIntegerWord? word
  else none

/-- An integer to the base that the letter after its first zero shows. -/
def ofBasedWord? : List Char → Option Value
  | '0' :: letter :: word => do
    let base ← [('x', 16), ('o', 8), ('b', 2)].lookup letter
    let digits := withoutBars word
    guard (barsSeparate (isDigitOf base) word && digits.all (isDigitOf base))
    return ofDigits base false digits
  | _ => none

/-- A value that is written as a name. -/
def ofNameWord? : String → Option Value
  | "true" => some (boolean true)
  | "false" => some (boolean false)
  | "inf" | "+inf" => some (float (1 / 0))
  | "-inf" => some (float (-1 / 0))
  | "nan" | "+nan" | "-nan" => some (float (0 / 0))
  | _ => none

end Value

/-! ### Dates and times -/

namespace Reader

/-- A number of exactly so many digits. -/
def number (count : Nat) : Reader Nat := fun cs ↦
  let word := cs.take count
  if word.length == count && word.all Char.isDigit then
    some (Decimal.natOfDigits word, cs.drop count)
  else none

/-- The number of days of a month. -/
def daysOfMonth (year month : Nat) : Nat :=
  if month == 2 then
    if year % 4 == 0 && (year % 100 != 0 || year % 400 == 0) then 29 else 28
  else if [4, 6, 9, 11].contains month then 30
  else 31

/-- A day of the calendar. -/
def date : Reader Unit := do
  let year ← number 4
  skip "-"
  let month ← number 2
  skip "-"
  let day ← number 2
  guard (1 ≤ month && month ≤ 12 && 1 ≤ day && day ≤ daysOfMonth year month)

/-- Hours and minutes. -/
def clock : Reader Unit := do
  let hour ← number 2
  skip ":"
  let minute ← number 2
  guard (hour ≤ 23 && minute ≤ 59)

/-- A time of the day. Seconds may be missing, a leap second may be shown, and seconds may have a
fraction. -/
def time : Reader Unit := do
  clock
  if ← accept ":" then
    let second ← number 2
    guard (second ≤ 60)
    if ← accept "." then
      guard !(← takeWhile Char.isDigit).isEmpty

/-- The distance from universal time. -/
def offset : Reader Unit :=
  skip "Z" <|> skip "z" <|> ((skip "+" <|> skip "-") *> clock)

/-- A date with a time, with or without an offset. -/
def dateTime : Reader Unit := do
  date
  skip "T" <|> skip "t" <|> skip " "
  time
  offset <|> pure ()

/-- Whether a reader takes a whole word. -/
def takesAll (reader : Reader Unit) (word : List Char) : Bool :=
  match reader word with
  | some ((), []) => true
  | _ => false

end Reader

namespace Value

/-- A date, a time or both. -/
def ofDateWord? (word : List Char) : Option Value := do
  guard ([Reader.date, Reader.time, Reader.dateTime].any (·.takesAll word))
  return datetime

/-- The value of an unquoted word. -/
def ofWord? (word : List Char) : Option Value :=
  ofNameWord? (String.ofList word) <|> ofBasedWord? word <|> ofDecimalWord? word
    <|> ofDateWord? word

end Value

namespace Reader

/-- Takes an unquoted word off the front. -/
def word : Reader (List Char) := fun cs ↦
  some (splitWord cs)

/-- A value that is neither an array nor a table. -/
def scalar : Reader Value :=
  (.string <$> string) <|> do
    match Value.ofWord? (← word) with
    | some v => return v
    | none => failure

end Reader

end Waypoints.Toml
