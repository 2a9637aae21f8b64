import Waypoints.Toml.Scalar
/-!
# Documents

A document is a row of statements, each on lines of its own: headers, which say to which table the
assignments after them belong, and assignments. `Document.read?` gives the table that a text
describes, or `none` if the text is not well formed or defines something twice.

Names, items, entries and statements each take at least one character, so the number of characters
bounds how many there are; `fuel` is such a bound.
-/

set_option autoImplicit false
set_option relaxedAutoImplicit false

namespace Waypoints.Toml

/-- One statement of a document. -/
inductive Statement
  /-- Opens a table. -/
  | table (key : Key)
  /-- Opens the next element of an array of tables. -/
  | element (key : Key)
  | assign (key : Key) (v : Value)

/-- The characters of names without quotes. -/
def isBareChar (c : Char) : Bool :=
  c.isAlphanum || c == '_' || c == '-'

/-- How deep arrays and tables may be nested in a value, and how many names a key may have. -/
def maxDepth : Nat := 80

namespace Reader

/-! ### Keys -/

/-- One name of a key. -/
def name : Reader String :=
  lineString <|> do
    let word ← takeWhile isBareChar
    guard !word.isEmpty
    return String.ofList word

/-- The names of a key after its first one. -/
def furtherNames : Nat → Reader (List String)
  | 0 => return []
  | fuel + 1 => do
    blanks
    if ← accept "." then
      blanks
      let part ← name
      return part :: (← furtherNames fuel)
    else return []

/-- A key: names with points between them. -/
def key (fuel : Nat) : Reader Key := do
  let first ← name
  let names := first :: (← furtherNames fuel)
  guard (names.length ≤ maxDepth)
  return ⟨names.dropLast, names.getLastD first⟩

/-- A key, an equals sign and a value. The space on both sides of the sign is passed over. -/
def binding (fuel : Nat) (space : Reader Unit) (value : Reader Value) : Reader (Key × Value) := do
  let k ← key fuel
  space
  skip "="
  space
  return (k, ← value)

/-! ### Values -/

/-- The items of an array up to its closing bracket. -/
def items (value : Reader Value) : Nat → Reader (List Value)
  | 0 => failure
  | fuel + 1 => do
    gap
    if ← accept "]" then return []
    let item ← value
    gap
    if ← accept "," then return item :: (← items value fuel)
    skip "]"
    return [item]

/-- The entries of a table up to its closing brace, added to those before them. -/
def entries (value : Reader Value) : Nat → Tree → Reader Tree
  | 0, _ => failure
  | fuel + 1, tree => do
    gap
    if ← accept "\x7d" then return tree
    let (k, v) ← binding fuel gap value
    match tree.assign k.parents k.name v with
    | none => failure
    | some tree =>
      gap
      if ← accept "," then entries value fuel tree
      else
        skip "\x7d"
        return tree

/-- A value in which arrays and tables are nested at most so deep. -/
def value (fuel : Nat) : Nat → Reader Value
  | 0 => scalar
  | depth + 1 => do
    if ← accept "[" then return .array (← items (value fuel depth) fuel)
    else if ← accept "\x7b" then
      return .table (Tree.toEntries (← entries (value fuel depth) fuel []))
    else scalar

/-! ### Statements -/

/-- A key between the brackets of a header. -/
def header (fuel : Nat) (opening closing : String) : Reader Key := do
  skip opening
  blanks
  let k ← key fuel
  blanks
  skip closing
  return k

/-- A statement. -/
def statement (fuel : Nat) : Reader Statement :=
  (.element <$> header fuel "[[" "]]") <|> (.table <$> header fuel "[" "]") <|> do
    let (k, v) ← binding fuel blanks (value fuel maxDepth)
    return .assign k v

/-- The statements up to the end of the text, on a line or more each. -/
def statements : Nat → Reader (List Statement)
  | 0 => failure
  | fuel + 1 => do
    gap
    if ← atEnd then return []
    let s ← statement fuel
    lineEnd
    return s :: (← statements fuel)

end Reader

/-! ### Documents -/

/-- A document of which some statements are read. -/
structure Document where
  root : Tree
  /-- The path of the table to which assignments belong. -/
  current : List String

namespace Document

/-- The document without statements. -/
def empty : Document :=
  ⟨[], []⟩

/-- Carries a statement out. -/
def add? (document : Document) : Statement → Option Document
  | .table key => do return ⟨← document.root.openTable key, key.path⟩
  | .element key => do return ⟨← document.root.openElement key, key.path⟩
  | .assign key v => do
    let root ← document.root.within document.current (Tree.assign key.parents key.name v)
    return { document with root := root }

/-- The text after a byte order mark, if there is one. -/
def dropMark : List Char → List Char
  | '\ufeff' :: cs => cs
  | cs => cs

/-- The entries of the table that a text describes. -/
def read? (text : String) : Option Entries := do
  let cs := dropMark text.toList
  let (statements, _) ← Reader.statements (cs.length + 1) cs
  let document ← statements.foldlM add? empty
  return Tree.toEntries document.root

end Document

end Waypoints.Toml
