import Waypoints.Expr.Lexer
/-!
# Spelled tokens are read back

`spell` writes tokens one after the other, each with a blank after it. If they are marks and names
(`Token.IsWord`), then reading the text gives the same tokens again (`lexemes_spell`), whatever the
tokens are and in whatever order they stand. So a statement about all texts can be tried on a
family of rows of tokens.
-/

set_option autoImplicit false
set_option relaxedAutoImplicit false

namespace Waypoints

namespace Token

/-- How a token is written. -/
def spelling : Token → String
  | number value => Number.text value
  | name word => word
  | mark m => m.spelling

/-- A word of letters, digits and underscores that does not start with a digit and is no keyword. -/
def IsName (word : String) : Prop :=
  (∃ c ∈ word.toList.head?, c.isAlpha ∨ c = '_') ∧
    (∀ c ∈ word.toList, c.isAlphanum ∨ c = '_') ∧
    word ∉ ["and", "or", "not", "if", "else", "for", "in"]

/-- The names are the words in the characters of names that are read as no keyword. -/
theorem isName_iff {word : String} : IsName word ↔
    startsName word.toList ∧ word.toList.all isNameChar ∧ Mark.ofWord? word = none := by
  have hstart : (∃ c ∈ word.toList.head?, c.isAlpha ∨ c = '_') ↔ startsName word.toList := by
    simp [startsName, isNameStart, Option.any_eq_true]
  have hall : (∀ c ∈ word.toList, c.isAlphanum ∨ c = '_') ↔ word.toList.all isNameChar := by
    simp [isNameChar, List.all_eq_true]
  have hkeyword : word ∉ Mark.keywords.map Mark.spelling ↔ Mark.ofWord? word = none := by
    simp only [Mark.ofWord?, List.find?_eq_none, List.mem_map, not_exists, not_and, beq_iff_eq]
  exact and_congr hstart (and_congr hall hkeyword)

instance (word : String) : Decidable (IsName word) :=
  decidable_of_iff _ isName_iff.symm

/-- The tokens with a fixed spelling: the marks and the names. -/
def IsWord : Token → Prop
  | number _ => False
  | name word => IsName word
  | mark _ => True

instance : (t : Token) → Decidable t.IsWord
  | number _ => inferInstanceAs (Decidable False)
  | name word => inferInstanceAs (Decidable (IsName word))
  | mark _ => inferInstanceAs (Decidable True)

end Token

/-- The text of tokens, with a blank after each. -/
def spell (ts : List Token) : List Char :=
  ts.flatMap fun t ↦ t.spelling.toList ++ [' ']

theorem spell_cons (t : Token) (ts : List Token) :
    spell (t :: ts) = t.spelling.toList ++ ' ' :: spell ts := by
  rw [spell, List.flatMap_cons, List.append_assoc]
  rfl

/-! ### Single tokens -/

/-- What starts a name is no digit. -/
theorem isDigit_of_isNameStart {c : Char} (h : isNameStart c) : c.isDigit = false := by
  rw [Bool.eq_false_iff]
  intro hdigit
  delta isNameStart Char.isAlpha Char.isUpper Char.isLower at h
  delta Char.isDigit at hdigit
  simp only [Bool.or_eq_true, Bool.and_eq_true, decide_eq_true_eq, beq_iff_eq,
    UInt32.le_iff_toNat_le, ge_iff_le] at h hdigit
  have hnine : '9'.val.toNat = 57 := rfl
  have hupper : 'A'.val.toNat = 65 := rfl
  have hlower : 'a'.val.toNat = 97 := rfl
  rcases h with (h | h) | rfl
  · omega
  · omega
  · exact absurd hdigit (by decide)

namespace Token

/-- A name does not start like a number. -/
theorem startsNumber_of_startsName {cs : List Char} (h : startsName cs) :
    startsNumber cs = false := by
  cases cs with
  | nil => rfl
  | cons c cs =>
    have hc : isNameStart c := h
    have hpoint : (c == '.') = false := by
      rw [beq_eq_false_iff_ne]
      rintro rfl
      exact absurd hc (by decide)
    rw [startsNumber, isDigit_of_isNameStart hc, hpoint]
    rfl

theorem read?_name {word : String} (h : IsName word) (cs : List Char) :
    read? (word.toList ++ ' ' :: cs) = some ⟨.name word, word.toList, ' ' :: cs⟩ := by
  obtain ⟨hstart, hall, hmark⟩ := isName_iff.1 h
  have hstarts : startsName (word.toList ++ ' ' :: cs) := by
    cases hword : word.toList with
    | nil =>
      rw [hword] at hstart
      cases hstart
    | cons c w =>
      rw [hword] at hstart
      exact hstart
  have htake : (word.toList ++ ' ' :: cs).takeWhile isNameChar = word.toList := by
    rw [List.takeWhile_append_of_pos (List.all_eq_true.1 hall),
      List.takeWhile_cons_of_neg (by decide), List.append_nil]
  have hof : ofWord (String.ofList word.toList) = .name word := by
    rw [String.ofList_toList, ofWord, hmark]
  rw [read?, startsNumber_of_startsName hstarts, if_neg Bool.false_ne_true, if_pos hstarts]
  dsimp only
  rw [htake, hof, List.drop_left]

/-- A mark or a name before a blank is read as it is written. -/
theorem read?_spelling {t : Token} (h : t.IsWord) (cs : List Char) :
    read? (t.spelling.toList ++ ' ' :: cs) = some ⟨t, t.spelling.toList, ' ' :: cs⟩ := by
  cases t with
  | number => exact h.elim
  | name word => exact read?_name h cs
  | mark m => cases m <;> rfl

/-- No token starts with a blank. -/
theorem read?_eq_none_of_isBlank {c : Char} (h : isBlank c) (cs : List Char) :
    read? (c :: cs) = none := by
  simp only [isBlank, Bool.or_eq_true, beq_iff_eq] at h
  rcases h with (((rfl | rfl) | rfl) | rfl) | rfl <;> rfl

end Token

/-! ### Texts -/

theorem lexemes_blank {c : Char} (h : isBlank c) (offset : Nat) (cs : List Char) :
    lexemes offset (c :: cs) = lexemes (offset + 1) cs := by
  rw [lexemes, if_pos h]

theorem lexemes_of_read? {cs : List Char} {r : Reading} (h : Token.read? cs = some r)
    (offset : Nat) :
    lexemes offset cs = do
      let later ← lexemes (offset + r.word.length) r.rest
      return ⟨r.token, offset⟩ :: later := by
  cases cs with
  | nil => cases h
  | cons c cs =>
    have hblank : ¬ isBlank c = true := by
      intro hblank
      rw [Token.read?_eq_none_of_isBlank hblank] at h
      cases h
    rw [lexemes, if_neg hblank]
    split
    · next hread =>
      rw [h] at hread
      cases hread
    · next hread =>
      rw [h] at hread
      obtain rfl := Option.some.inj hread
      rfl

/-- Marks and names are read back from their text.

Assumes: there is no number among the tokens, and every name is a word that is no keyword. -/
theorem lexemes_spell {ts : List Token} (h : ∀ t ∈ ts, t.IsWord) (offset : Nat) :
    ∃ ls, lexemes offset (spell ts) = .ok ls ∧ ls.map (·.token) = ts := by
  induction ts generalizing offset with
  | nil =>
    refine ⟨[], ?_, rfl⟩
    change lexemes offset [] = _
    rw [lexemes]
  | cons t ts ih =>
    obtain ⟨ht, hts⟩ := List.forall_mem_cons.1 h
    obtain ⟨ls, hls, htokens⟩ := ih hts (offset + t.spelling.toList.length + 1)
    refine ⟨⟨t, offset⟩ :: ls, ?_, ?_⟩
    · rw [spell_cons, lexemes_of_read? (Token.read?_spelling ht _)]
      dsimp only
      rw [lexemes_blank rfl, hls]
      rfl
    · rw [List.map_cons, htokens]

end Waypoints
