import Waypoints.Expr.ParseError
import Waypoints.Number.Decimal
/-!
# Reading the tokens of an expression

`Token.read?` reads the token at the front of a text, always the longest one there, and says which
word it is spelled with; `read?_append` shows that the word and the rest make up the text, and that
the word is not empty. `lexemes` repeats this to the end of the text, passing over blanks. Every
token is spelled in ASCII, so the length of its word is also its number of bytes.
-/

set_option autoImplicit false
set_option relaxedAutoImplicit false

namespace Waypoints

/-- The characters between tokens: space, tab, line feed, form feed and carriage return. -/
def isBlank (c : Char) : Bool :=
  c == ' ' || c == '\t' || c == '\n' || c == '\x0c' || c == '\r'

/-- The characters a name may start with. -/
def isNameStart (c : Char) : Bool :=
  c.isAlpha || c == '_'

/-- The characters a name may go on with. -/
def isNameChar (c : Char) : Bool :=
  c.isAlphanum || c == '_'

/-! ### Numbers -/

/-- A point and the digits after it, if there is a point. -/
def takeFraction : List Char → List Char
  | '.' :: cs => '.' :: cs.takeWhile Char.isDigit
  | _ => []

/-- The sign at the front of a text, if there is one. -/
def takeSign : List Char → List Char
  | '+' :: _ => ['+']
  | '-' :: _ => ['-']
  | _ => []

/-- A power of ten at the front of a text: a letter `e`, a sign or none, and at least one digit. -/
def takeExponent : List Char → List Char
  | c :: cs =>
    if c == 'e' || c == 'E' then
      let sign := takeSign cs
      let digits := (cs.drop sign.length).takeWhile Char.isDigit
      if digits.isEmpty then [] else c :: sign ++ digits
    else []
  | [] => []

/-- The word of the number at the front of a text, in its three parts. -/
structure NumberWord where
  whole : List Char
  fraction : List Char
  exponent : List Char
  deriving DecidableEq

namespace NumberWord

/-- Reads digits, a fraction and a power of ten, each as long as it can be. -/
def ofPrefix (cs : List Char) : NumberWord :=
  let whole := cs.takeWhile Char.isDigit
  let fraction := takeFraction (cs.drop whole.length)
  ⟨whole, fraction, takeExponent (cs.drop (whole ++ fraction).length)⟩

/-- The characters of a number. -/
def word (n : NumberWord) : List Char :=
  n.whole ++ n.fraction ++ n.exponent

/-- The power of ten that a number shows. -/
def power (n : NumberWord) : Int :=
  match n.exponent.drop 1 with
  | '-' :: digits => -(Decimal.natOfDigits digits : Int)
  | '+' :: digits => Decimal.natOfDigits digits
  | digits => Decimal.natOfDigits digits

/-- The value of a number, rounded to the nearest binary64 number. -/
def value (n : NumberWord) : Float :=
  (Decimal.ofParts n.whole (n.fraction.drop 1) n.power).toFloat

end NumberWord

/-! ### Tokens -/

/-- A token, the word it is spelled with, and the text after that word. -/
structure Reading where
  token : Token
  word : List Char
  rest : List Char

namespace Token

/-- The token spelled by a word in the characters of names. -/
def ofWord (word : String) : Token :=
  match Mark.ofWord? word with
  | some m => .mark m
  | none => .name word

/-- A digit, or a point before a digit. -/
def startsNumber : List Char → Bool
  | c :: cs => c.isDigit || (c == '.' && cs.head?.any Char.isDigit)
  | [] => false

/-- Whether the text starts with a name or a keyword. -/
def startsName (cs : List Char) : Bool :=
  cs.head?.any isNameStart

/-- The longest symbol at the front of a text. -/
def readSymbol? (cs : List Char) : Option Reading :=
  Mark.symbols.findSome? fun m ↦
    let word := m.spelling.toList
    if word.isPrefixOf cs then some ⟨.mark m, word, cs.drop word.length⟩ else none

/-- The longest token at the front of a text. -/
def read? (cs : List Char) : Option Reading :=
  if startsNumber cs then
    let n := NumberWord.ofPrefix cs
    some ⟨.number n.value, n.word, cs.drop n.word.length⟩
  else if startsName cs then
    let word := cs.takeWhile isNameChar
    some ⟨ofWord (String.ofList word), word, cs.drop word.length⟩
  else readSymbol? cs

end Token

/-! ### The words make up the text -/

theorem takeWhile_isPrefix (p : Char → Bool) (cs : List Char) : cs.takeWhile p <+: cs :=
  List.takeWhile_prefix p

theorem takeFraction_isPrefix (cs : List Char) : takeFraction cs <+: cs := by
  unfold takeFraction
  split
  · exact (List.prefix_cons_inj _).2 (takeWhile_isPrefix _ _)
  · exact List.nil_prefix

theorem takeSign_isPrefix (cs : List Char) : takeSign cs <+: cs := by
  unfold takeSign
  split
  · exact ⟨_, rfl⟩
  · exact ⟨_, rfl⟩
  · exact List.nil_prefix

/-- A prefix followed by a prefix of what it leaves is a prefix. -/
theorem append_isPrefix {v w cs : List Char} (hv : v <+: cs) (hw : w <+: cs.drop v.length) :
    v ++ w <+: cs := by
  obtain ⟨rest, rfl⟩ := hv
  rw [List.drop_left] at hw
  exact (List.prefix_append_right_inj v).2 hw

theorem takeExponent_isPrefix (cs : List Char) : takeExponent cs <+: cs := by
  match cs with
  | [] => exact List.nil_prefix
  | c :: cs =>
    simp only [takeExponent]
    split
    · split
      · exact List.nil_prefix
      · exact (List.prefix_cons_inj _).2
          (append_isPrefix (takeSign_isPrefix cs) (takeWhile_isPrefix _ _))
    · exact List.nil_prefix

theorem NumberWord.word_ofPrefix_isPrefix (cs : List Char) :
    (NumberWord.ofPrefix cs).word <+: cs :=
  append_isPrefix (append_isPrefix (takeWhile_isPrefix _ _) (takeFraction_isPrefix _))
    (takeExponent_isPrefix _)

theorem NumberWord.word_ofPrefix_ne_nil {cs : List Char} (h : Token.startsNumber cs) :
    (NumberWord.ofPrefix cs).word ≠ [] := by
  match cs with
  | [] => simp [Token.startsNumber] at h
  | c :: cs =>
    by_cases hc : c.isDigit
    · simp [NumberWord.ofPrefix, NumberWord.word, hc]
    · have hpoint : c = '.' := by
        simp only [Token.startsNumber, hc] at h
        simp at h
        exact h.1
      subst hpoint
      simp [NumberWord.ofPrefix, NumberWord.word, hc, takeFraction]

theorem Mark.spelling_ne_nil (m : Mark) : m.spelling.toList ≠ [] := by
  cases m <;> decide

namespace Token

/-- The word of a token is a prefix of the text, is not empty, and the rest is what follows it. -/
theorem read?_spec {cs : List Char} {r : Reading} (h : read? cs = some r) :
    r.word <+: cs ∧ r.word ≠ [] ∧ r.rest = cs.drop r.word.length := by
  unfold read? at h
  split at h
  · next hnumber =>
    obtain rfl := Option.some.inj h
    exact ⟨NumberWord.word_ofPrefix_isPrefix cs, NumberWord.word_ofPrefix_ne_nil hnumber, rfl⟩
  · split at h
    · next hname =>
      obtain rfl := Option.some.inj h
      refine ⟨takeWhile_isPrefix _ _, ?_, rfl⟩
      match cs with
      | [] => simp [startsName] at hname
      | c :: cs =>
        have hc : isNameChar c := by
          simp only [startsName, List.head?_cons, Option.any_some, isNameStart, Bool.or_eq_true]
            at hname
          simp only [isNameChar, Char.isAlphanum, Bool.or_eq_true]
          exact hname.imp_left .inl
        simp [hc]
    · unfold readSymbol? at h
      obtain ⟨m, -, hm⟩ := List.exists_of_findSome?_eq_some h
      simp only at hm
      split at hm
      · next hprefix =>
        obtain rfl := Option.some.inj hm
        exact ⟨List.isPrefixOf_iff_prefix.1 hprefix, m.spelling_ne_nil, rfl⟩
      · simp at hm

/-- A token's word and the rest make up the text. -/
theorem read?_append {cs : List Char} {r : Reading} (h : read? cs = some r) :
    r.word ++ r.rest = cs := by
  obtain ⟨⟨rest, rfl⟩, -, hrest⟩ := read?_spec h
  rw [hrest, List.drop_left]

/-- What follows a token is shorter than the text. -/
theorem length_rest_lt {cs : List Char} {r : Reading} (h : read? cs = some r) :
    r.rest.length < cs.length := by
  have happend := congrArg List.length (read?_append h)
  have hne := List.length_pos_iff.2 (read?_spec h).2.1
  rw [List.length_append] at happend
  omega

end Token

/-! ### Texts -/

/-- The tokens of a text that starts at a byte offset. -/
def lexemes (offset : Nat) : List Char → Except ParseError (List Lexeme)
  | [] => .ok []
  | c :: cs =>
    if isBlank c then lexemes (offset + 1) cs
    else
      match _hread : Token.read? (c :: cs) with
      | none => .error ⟨offset, .unexpectedCharacter c⟩
      | some r => do
        let later ← lexemes (offset + r.word.length) r.rest
        return ⟨r.token, offset⟩ :: later
termination_by cs => cs.length
decreasing_by
  · simp
  · exact Token.length_rest_lt _hread

end Waypoints
