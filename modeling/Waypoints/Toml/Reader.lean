import Waypoints.Toml.Tree
/-!
# Reading from the front of a text

A `Reader` takes something off the front of a text, or refuses the text. The readers here are those
of blanks, line ends and comments, with which a document separates its parts.
-/

set_option autoImplicit false
set_option relaxedAutoImplicit false

namespace Waypoints.Toml

/-- Takes a value off the front of a text. -/
abbrev Reader := StateT (List Char) Option

/-- Blanks stand between the parts of a line. -/
def isBlank (c : Char) : Bool :=
  c == ' ' || c == '\t'

/-- The characters of comments and of strings on one line: all but the control characters, and the
tab among these. -/
def isText (c : Char) : Bool :=
  c == '\t' || (' ' ≤ c && c != '\x7f')

/-- Passes over line ends and blanks. A line ends in a line feed, which a carriage return may
precede. -/
def skipLines : List Char → List Char
  | ' ' :: cs => skipLines cs
  | '\t' :: cs => skipLines cs
  | '\n' :: cs => skipLines cs
  | '\r' :: '\n' :: cs => skipLines cs
  | cs => cs

theorem length_dropWhile_le (p : Char → Bool) (cs : List Char) :
    (cs.dropWhile p).length ≤ cs.length :=
  (List.dropWhile_sublist p).length_le

/-- Passes over line ends, blanks and comments. A comment lasts to the end of its line. -/
def skipGap : List Char → List Char
  | ' ' :: cs => skipGap cs
  | '\t' :: cs => skipGap cs
  | '\n' :: cs => skipGap cs
  | '\r' :: '\n' :: cs => skipGap cs
  | '#' :: cs => skipGap (cs.dropWhile isText)
  | cs => cs
termination_by cs => cs.length
decreasing_by
  all_goals simp only [List.length_cons]
  · omega
  · omega
  · omega
  · omega
  · exact Nat.lt_succ_of_le (length_dropWhile_le _ _)

namespace Reader

/-- The reader of a function that may refuse the text. -/
def ofFunction {α : Type} (f : List Char → Option (α × List Char)) : Reader α :=
  f

/-- Passes over exactly these characters. -/
def skip (word : String) : Reader Unit := fun cs ↦
  if word.toList.isPrefixOf cs then some ((), cs.drop word.length) else none

/-- Passes over these characters if they come next, and says whether they did. -/
def accept (word : String) : Reader Bool :=
  (skip word *> pure true) <|> pure false

/-- Takes the characters that come next and satisfy a test. -/
def takeWhile (p : Char → Bool) : Reader (List Char) := fun cs ↦
  some (cs.takeWhile p, cs.dropWhile p)

/-- Whether nothing is left. -/
def atEnd : Reader Bool := fun cs ↦
  some (cs.isEmpty, cs)

/-- Passes over blanks. -/
def blanks : Reader Unit :=
  modify (·.dropWhile isBlank)

/-- Passes over blanks, line ends and comments. -/
def gap : Reader Unit :=
  modify skipGap

/-- Passes over the end of a line, which is also the end of the text. -/
def lineEnd : Reader Unit := do
  blanks
  if ← accept "#" then
    let _ ← takeWhile isText
  if ← atEnd then return
  skip "\n" <|> skip "\r\n"

end Reader

end Waypoints.Toml
