import Waypoints.Number.Text
/-!
# JSON text

A JSON value written out over several lines: what is inside an array or an object stands on lines
of its own, two blanks further in, and an empty array or object stays on its line. Numbers that are
not finite are `null`.
-/

set_option autoImplicit false
set_option relaxedAutoImplicit false

namespace Waypoints.Json

/-- A JSON value. -/
inductive Value
  | null
  | boolean (b : Bool)
  | count (n : Nat)
  | number (x : Float)
  | string (text : String)
  | array (items : List Value)
  | object (fields : List (String × Value))

/-- The escape of a control character that has no letter. -/
def numberedEscape (c : Char) : List Char :=
  let digits := Nat.toDigits 16 c.toNat
  '\\' :: 'u' :: (.replicate (4 - digits.length) '0' ++ digits)

/-- A character inside quotes. -/
def quotedChar (c : Char) : List Char :=
  if c == '"' then ['\\', '"']
  else if c == '\\' then ['\\', '\\']
  else if c == '\x08' then ['\\', 'b']
  else if c == '\t' then ['\\', 't']
  else if c == '\n' then ['\\', 'n']
  else if c == '\x0c' then ['\\', 'f']
  else if c == '\r' then ['\\', 'r']
  else if c < ' ' then numberedEscape c
  else [c]

/-- A text in quotes. -/
def quoted (text : String) : String :=
  "\"" ++ String.ofList (text.toList.flatMap quotedChar) ++ "\""

/-- The indentation inside an array or object that has a given one. -/
def deeper (indent : String) : String :=
  indent ++ "  "

mutual

/-- Writes a value after some text, with the indentation of its line. -/
def Value.writeAfter (text : String) (indent : String) : Value → String
  | .null => text ++ "null"
  | .boolean b => text ++ if b then "true" else "false"
  | .count n => text ++ toString n
  | .number x => text ++ Number.jsonText x
  | .string s => text ++ quoted s
  | .array [] => text ++ "[]"
  | .array (item :: items) =>
    writeItems (item.writeAfter (text ++ "[\n" ++ deeper indent) (deeper indent)) (deeper indent)
      items ++ "\n" ++ indent ++ "]"
  | .object [] => text ++ "\x7b\x7d"
  | .object ((name, value) :: fields) =>
    writeFields (value.writeAfter (text ++ "\x7b\n" ++ deeper indent ++ quoted name ++ ": ")
      (deeper indent)) (deeper indent) fields ++ "\n" ++ indent ++ "\x7d"

/-- Writes further items of an array after some text. -/
def writeItems (text : String) (indent : String) : List Value → String
  | [] => text
  | item :: items => writeItems (item.writeAfter (text ++ ",\n" ++ indent) indent) indent items

/-- Writes further fields of an object after some text. -/
def writeFields (text : String) (indent : String) : List (String × Value) → String
  | [] => text
  | (name, value) :: fields =>
    writeFields (value.writeAfter (text ++ ",\n" ++ indent ++ quoted name ++ ": ") indent) indent
      fields

end

/-- The text of a value. -/
def Value.text (v : Value) : String :=
  v.writeAfter "" ""

end Waypoints.Json
