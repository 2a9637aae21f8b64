import Waypoints.Toml.Reader
/-!
# Quoted strings

A string is delimited by one mark or by three. Three marks let it run over several lines; then a
line end right after the opening marks does not count, and up to two marks may stand before the
closing ones. Double quotes allow escapes; between single quotes every character stands for itself.
-/

set_option autoImplicit false
set_option relaxedAutoImplicit false

namespace Waypoints.Toml

/-- The value of a hexadecimal digit. -/
def hexDigit? (c : Char) : Option Nat :=
  if c.isDigit then some (c.toNat - '0'.toNat)
  else if 'a' ≤ c && c ≤ 'f' then some (c.toNat - 'a'.toNat + 10)
  else if 'A' ≤ c && c ≤ 'F' then some (c.toNat - 'A'.toNat + 10)
  else none

/-- The digits of numbers to a base of at most sixteen. -/
def isDigitOf (base : Nat) (c : Char) : Bool :=
  (hexDigit? c).any (· < base)

/-- The value of a word of digits to a base. -/
def natOfWord (base : Nat) (word : List Char) : Nat :=
  Decimal.ofDigits base (fun c ↦ (hexDigit? c).getD 0) word

/-- How a string is quoted. -/
structure Style where
  mark : Char
  /-- Whether a backslash starts an escape. -/
  escapes : Bool
  /-- Whether the string may run over several lines. -/
  lines : Bool

/-- The character whose number the first `count` characters of a text show. Numbers that are no
character are refused. -/
def numberedChar? (count : Nat) (cs : List Char) : Option Char :=
  let word := cs.take count
  let n := natOfWord 16 word
  if word.length == count && word.all (isDigitOf 16) && n.isValidChar then some (.ofNat n)
  else none

/-- The character of the escape after a backslash, and the number of characters that the escape
takes. -/
def escape? : List Char → Option (Char × Nat)
  | 'b' :: _ => some ('\x08', 1)
  | 't' :: _ => some ('\t', 1)
  | 'n' :: _ => some ('\n', 1)
  | 'f' :: _ => some ('\x0c', 1)
  | 'r' :: _ => some ('\r', 1)
  | 'e' :: _ => some ('\x1b', 1)
  | '"' :: _ => some ('"', 1)
  | '\\' :: _ => some ('\\', 1)
  | 'x' :: cs => (numberedChar? 2 cs).map (·, 3)
  | 'u' :: cs => (numberedChar? 4 cs).map (·, 5)
  | 'U' :: cs => (numberedChar? 8 cs).map (·, 9)
  | _ => none

/-- Whether a line end comes next. -/
def startsLineEnd : List Char → Bool
  | '\n' :: _ => true
  | '\r' :: '\n' :: _ => true
  | _ => false

namespace Style

/-- The marks that end a string here, if some do: those of them that belong to the string, and the
number of characters after the first one. -/
def close? (style : Style) (cs : List Char) : Option (List Char × Nat) :=
  let run := min 5 (cs.takeWhile (· == style.mark)).length
  if style.lines then
    if 3 ≤ run then some (.replicate (run - 3) style.mark, run - 1) else none
  else if 1 ≤ run then some ([], 0)
  else none

/-- What a character of a string stands for, and how many of the characters after it belong to it.
A backslash at the end of a line stands for nothing and takes the blanks and line ends with it. -/
def piece? (style : Style) (c : Char) (cs : List Char) : Option (Option Char × Nat) :=
  if style.escapes && c == '\\' then
    if style.lines && startsLineEnd (cs.dropWhile isBlank) then
      some (none, cs.length - (skipLines cs).length)
    else (escape? cs).map fun (c, count) ↦ (some c, count)
  else if isText c || (style.lines && startsLineEnd (c :: cs)) then some (some c, 0)
  else none

/-- The rest of a string of which some characters, last one first, are read already. -/
def body (style : Style) (reversed : List Char) : List Char → Option (String × List Char)
  | [] => none
  | c :: cs =>
    match style.close? (c :: cs) with
    | some (marks, count) => some (String.ofList (reversed.reverse ++ marks), cs.drop count)
    | none =>
      match style.piece? c cs with
      | some (meaning, count) => body style (meaning.toList ++ reversed) (cs.drop count)
      | none => none
termination_by cs => cs.length
decreasing_by
  simp only [List.length_drop, List.length_cons]
  omega

end Style

/-- Passes over one line end, if it comes next. -/
def dropLineEnd : List Char → List Char
  | '\n' :: cs => cs
  | '\r' :: '\n' :: cs => cs
  | cs => cs

namespace Reader

/-- A string on one line. -/
def lineString : Reader String := fun
  | '"' :: cs => Style.body ⟨'"', true, false⟩ [] cs
  | '\'' :: cs => Style.body ⟨'\'', false, false⟩ [] cs
  | _ => none

/-- A string. -/
def string : Reader String := fun
  | '"' :: '"' :: '"' :: cs => Style.body ⟨'"', true, true⟩ [] (dropLineEnd cs)
  | '\'' :: '\'' :: '\'' :: cs => Style.body ⟨'\'', false, true⟩ [] (dropLineEnd cs)
  | cs => lineString cs

end Reader

end Waypoints.Toml
