import Mathlib.Data.List.Infix
import Mathlib.Data.List.TakeWhile
import Waypoints.Proofs.Parsing.Spelling
/-!
# The words of tokens

`Token.SpelledBy` says which words spell a token: a numeral in the documented form of decimal
numbers (`NumberWord.WellFormed`), a name or keyword, or a symbol. `Token.Longest` says that a text
starts with a word of a token and with no longer one of any token. `Token.read?_eq_some_iff` and
`Token.read?_eq_none_iff` show that the reader finds the longest word whenever there is one, and
that the word determines the token.
-/

set_option autoImplicit false
set_option relaxedAutoImplicit false

namespace Waypoints

/-! ### Numerals -/

/-- A row of digits. -/
def IsDigits (cs : List Char) : Prop :=
  ∀ c ∈ cs, c.isDigit

/-- A point and the digits after it. -/
def IsFraction (cs : List Char) : Prop :=
  ∃ digits, cs = '.' :: digits ∧ IsDigits digits

/-- A letter `e`, a sign or none, and at least one digit. -/
def IsExponent (cs : List Char) : Prop :=
  ∃ letter sign digits, cs = letter :: (sign ++ digits) ∧ letter ∈ ['e', 'E'] ∧
    sign ∈ [[], ['+'], ['-']] ∧ digits ≠ [] ∧ IsDigits digits

/-- The form of a decimal numeral: digits with an optional point before, between or after them, and
an optional exponent with digits. -/
structure NumberWord.WellFormed (n : NumberWord) : Prop where
  whole : IsDigits n.whole
  fraction : n.fraction = [] ∨ IsFraction n.fraction
  exponent : n.exponent = [] ∨ IsExponent n.exponent
  /-- There is a digit before the point or after it. -/
  digit : n.whole ≠ [] ∨ 1 < n.fraction.length

theorem isDigits_takeWhile (cs : List Char) : IsDigits (cs.takeWhile Char.isDigit) :=
  fun _ hc ↦ List.all_eq_true.1 List.all_takeWhile _ hc

/-- Digits are taken with all digits after them. -/
theorem takeWhile_digits {ds : List Char} (h : IsDigits ds) (rest : List Char) :
    (ds ++ rest).takeWhile Char.isDigit = ds ++ rest.takeWhile Char.isDigit :=
  List.takeWhile_append_of_pos h

theorem takeFraction_append {f : List Char} (h : IsFraction f) (rest : List Char) :
    takeFraction (f ++ rest) = f ++ rest.takeWhile Char.isDigit := by
  obtain ⟨digits, rfl, hdigits⟩ := h
  rw [List.cons_append, takeFraction, takeWhile_digits hdigits, List.cons_append]

/-- A sign is taken off the digits after it, and none where there is none. -/
theorem takeSign_append {sign : List Char} {d : Char} (hsign : sign ∈ [[], ['+'], ['-']])
    (hd : d.isDigit) (rest : List Char) : takeSign (sign ++ d :: rest) = sign := by
  simp only [List.mem_cons, List.not_mem_nil, or_false] at hsign
  rcases hsign with rfl | rfl | rfl
  · rw [List.nil_append]
    unfold takeSign
    split
    · next heq =>
      obtain ⟨rfl, -⟩ := List.cons.inj heq
      cases hd
    · next heq =>
      obtain ⟨rfl, -⟩ := List.cons.inj heq
      cases hd
    · rfl
  · rfl
  · rfl

theorem takeExponent_append {e : List Char} (h : IsExponent e) (rest : List Char) :
    takeExponent (e ++ rest) = e ++ rest.takeWhile Char.isDigit := by
  obtain ⟨letter, sign, digits, rfl, hletter, hsign, hne, hdigits⟩ := h
  obtain ⟨d, ds, rfl⟩ := List.exists_cons_of_ne_nil hne
  have hletter : (letter == 'e' || letter == 'E') = true := by simpa using hletter
  have hsigned : takeSign (sign ++ (d :: ds ++ rest)) = sign :=
    takeSign_append hsign (hdigits d List.mem_cons_self) (ds ++ rest)
  have hdigit : (d :: ds ++ rest).takeWhile Char.isDigit =
      d :: ds ++ rest.takeWhile Char.isDigit := takeWhile_digits hdigits rest
  rw [List.cons_append, List.append_assoc, takeExponent, if_pos hletter, hsigned]
  dsimp only
  rw [List.drop_left, hdigit]
  simp

/-- Where an exponent starts there are no digits and no fraction. -/
theorem takeWhile_exponent {e : List Char} (h : IsExponent e) (rest : List Char) :
    (e ++ rest).takeWhile Char.isDigit = [] ∧ takeFraction (e ++ rest) = [] := by
  obtain ⟨letter, sign, digits, rfl, hletter, -⟩ := h
  simp only [List.mem_cons, List.not_mem_nil, or_false] at hletter
  rcases hletter with rfl | rfl <;> exact ⟨rfl, rfl⟩

/-- Where a fraction starts there are no digits. -/
theorem takeWhile_fraction {f : List Char} (h : IsFraction f) (rest : List Char) :
    (f ++ rest).takeWhile Char.isDigit = [] := by
  obtain ⟨digits, rfl, -⟩ := h
  rfl

namespace NumberWord

variable {n : NumberWord}

/-- What is read at the front of a numeral, by the parts that the numeral has. What follows extends
the last of them. -/
theorem ofPrefix_append (h : n.WellFormed) (rest : List Char) :
    ofPrefix (n.word ++ rest) =
      if n.exponent ≠ [] then
        ⟨n.whole, n.fraction, n.exponent ++ rest.takeWhile Char.isDigit⟩
      else if n.fraction ≠ [] then
        let more := rest.takeWhile Char.isDigit
        ⟨n.whole, n.fraction ++ more, takeExponent (rest.drop more.length)⟩
      else
        let more := ofPrefix rest
        ⟨n.whole ++ more.whole, more.fraction, more.exponent⟩ := by
  obtain ⟨whole, fraction, exponent⟩ := n
  obtain ⟨hwhole, hfraction, hexponent, -⟩ := h
  dsimp only at hwhole hfraction hexponent ⊢
  simp only [word, ofPrefix, List.append_assoc, takeWhile_digits hwhole, List.length_append,
    ← List.drop_drop]
  split
  · next hne =>
    obtain ⟨hdigits, hpoint⟩ := takeWhile_exponent (hexponent.resolve_left hne) rest
    have htake := takeExponent_append (hexponent.resolve_left hne) rest
    rcases hfraction with rfl | hfraction
    · simp only [List.nil_append, hdigits, List.length_nil, List.drop_zero, List.append_nil,
        List.drop_left, hpoint, htake]
    · simp only [takeWhile_fraction hfraction, List.length_nil, List.drop_zero, List.append_nil,
        List.drop_left, takeFraction_append hfraction, hdigits, htake]
  · next hnil =>
    obtain rfl : exponent = [] := not_not.1 hnil
    split
    · next hne =>
      have hfraction := hfraction.resolve_left hne
      simp only [List.nil_append, takeWhile_fraction hfraction, List.length_nil, List.drop_zero,
        List.append_nil, List.drop_left, takeFraction_append hfraction, List.length_append,
        ← List.drop_drop]
    · next hnil =>
      obtain rfl : fraction = [] := not_not.1 hnil
      simp only [List.nil_append, List.drop_left]

/-- A numeral is a prefix of what is read where it stands. -/
theorem word_isPrefix_ofPrefix (h : n.WellFormed) (rest : List Char) :
    n.word <+: (ofPrefix (n.word ++ rest)).word := by
  rw [ofPrefix_append h]
  split
  · simp [word]
  · next hexponent =>
    rw [not_not] at hexponent
    split
    · simp [word, hexponent]
    · next hfraction =>
      rw [not_not] at hfraction
      simp [word, hexponent, hfraction]

/-- A numeral is read as it is written. -/
theorem ofPrefix_word (h : n.WellFormed) : ofPrefix n.word = n := by
  have hread := ofPrefix_append h []
  rw [List.append_nil] at hread
  rw [hread]
  split
  · simp
  · next hexponent =>
    rw [not_not] at hexponent
    have hnil : takeExponent [] = n.exponent := hexponent.symm
    split
    · simp [hnil]
    · next hfraction =>
      rw [not_not] at hfraction
      have hparts : ofPrefix [] = ⟨[], n.fraction, n.exponent⟩ := by
        rw [hexponent, hfraction]
        rfl
      simp [hparts]

/-- What is read at the front of a text that starts like a number is a numeral. -/
theorem wellFormed_ofPrefix {cs : List Char} (h : Token.startsNumber cs) :
    (ofPrefix cs).WellFormed where
  whole := isDigits_takeWhile cs
  fraction := by
    change takeFraction _ = [] ∨ IsFraction (takeFraction _)
    unfold takeFraction
    split
    · exact .inr ⟨_, rfl, isDigits_takeWhile _⟩
    · exact .inl rfl
  exponent := by
    change takeExponent _ = [] ∨ IsExponent (takeExponent _)
    unfold takeExponent
    split
    · dsimp only
      split
      · next hletter =>
        split
        · exact .inl rfl
        · next hdigits =>
          refine .inr ⟨_, _, _, rfl, by simpa using hletter, ?_, ?_, isDigits_takeWhile _⟩
          · unfold takeSign
            split <;> decide
          · simpa using hdigits
      · exact .inl rfl
    · exact .inl rfl
  digit := by
    match cs with
    | [] => cases h
    | c :: cs =>
      by_cases hc : c.isDigit
      · simp [ofPrefix, hc]
      · simp only [Token.startsNumber, hc, Bool.false_or, Bool.and_eq_true, beq_iff_eq,
          Option.any_eq_true, List.head?_eq_some_iff] at h
        obtain ⟨rfl, d, ⟨ds, rfl⟩, hd⟩ := h
        simp [ofPrefix, takeFraction, hc, hd]

/-- A numeral starts like a number. -/
theorem startsNumber_append (h : n.WellFormed) (rest : List Char) :
    Token.startsNumber (n.word ++ rest) := by
  obtain ⟨whole, fraction, exponent⟩ := n
  obtain ⟨hwhole, hfraction, -, hdigit⟩ := h
  dsimp only at hwhole hfraction hdigit
  cases whole with
  | cons d ds =>
    have hd : d.isDigit := hwhole d List.mem_cons_self
    simp [word, Token.startsNumber, hd]
  | nil =>
    have hlong := hdigit.resolve_left (not_not.2 rfl)
    rcases hfraction with rfl | ⟨digits, rfl, hdigits⟩
    · cases hlong
    · rcases digits with _ | ⟨d, ds⟩
      · exact absurd hlong (lt_irrefl 1)
      · have hd : d.isDigit := hdigits d List.mem_cons_self
        simp [word, Token.startsNumber, hd]

end NumberWord

/-! ### Words -/

namespace Token

/-- The words that spell a token. -/
inductive SpelledBy : Token → List Char → Prop
  | number {n : NumberWord} (h : n.WellFormed) : SpelledBy (.number n.value) n.word
  | name {word : String} (h : IsName word) : SpelledBy (.name word) word.toList
  | mark (m : Mark) : SpelledBy (.mark m) m.spelling.toList

/-- A text starts with a word of a token, and with no longer word of any token. -/
structure Longest (t : Token) (word cs : List Char) : Prop where
  spelled : t.SpelledBy word
  isPrefix : word <+: cs
  length_le (t' : Token) (word' : List Char) :
    t'.SpelledBy word' → word' <+: cs → word'.length ≤ word.length

/-- A word of characters of names, whether it is a keyword or not. -/
theorem ofWord_spelledBy {word : List Char} (hstart : startsName word)
    (hall : word.all isNameChar) : (ofWord (String.ofList word)).SpelledBy word := by
  unfold ofWord
  split
  · next m hm =>
    have hspelling : m.spelling = String.ofList word := by
      simpa using List.find?_some hm
    have hspelled := SpelledBy.mark m
    rwa [hspelling, String.toList_ofList] at hspelled
  · next hm =>
    have hname : IsName (String.ofList word) := by
      refine isName_iff.2 ⟨?_, ?_, hm⟩ <;> rwa [String.toList_ofList]
    have hspelled := SpelledBy.name hname
    rwa [String.toList_ofList] at hspelled

theorem isNameChar_of_isNameStart {c : Char} (h : isNameStart c) : isNameChar c := by
  simp only [isNameStart, Bool.or_eq_true] at h
  simp only [isNameChar, Char.isAlphanum, Bool.or_eq_true]
  exact h.imp_left .inl

/-- A mark is a keyword or a symbol. -/
theorem mark_cases (m : Mark) :
    (startsName m.spelling.toList ∧ m.spelling.toList.all isNameChar ∧
      Mark.ofWord? m.spelling = some m) ∨ m ∈ Mark.symbols := by
  cases m <;> decide

/-- A word of a token is a numeral, a word in the characters of names, or a symbol. -/
theorem SpelledBy.elim {t : Token} {word : List Char} (h : t.SpelledBy word) :
    (∃ n : NumberWord, n.WellFormed ∧ t = .number n.value ∧ word = n.word) ∨
      (startsName word ∧ word.all isNameChar ∧ t = ofWord (String.ofList word)) ∨
      ∃ m ∈ Mark.symbols, t = .mark m ∧ word = m.spelling.toList := by
  cases h with
  | @number n h => exact .inl ⟨n, h, rfl, rfl⟩
  | @name word h =>
    obtain ⟨hstart, hall, hmark⟩ := isName_iff.1 h
    refine .inr (.inl ⟨hstart, hall, ?_⟩)
    rw [String.ofList_toList, ofWord, hmark]
  | mark m =>
    rcases mark_cases m with ⟨hstart, hall, hm⟩ | hm
    · refine .inr (.inl ⟨hstart, hall, ?_⟩)
      rw [String.ofList_toList, ofWord, hm]
    · exact .inr (.inr ⟨m, hm, rfl, rfl⟩)

/-- The word of a name starts every text that starts with it like a name. -/
theorem startsName_append {word : List Char} (h : startsName word) (rest : List Char) :
    startsName (word ++ rest) := by
  cases word with
  | nil => cases h
  | cons c cs => exact h

/-- Symbols start neither like numbers nor like names. -/
theorem starts_symbol {m : Mark} (h : m ∈ Mark.symbols) (rest : List Char) :
    startsNumber (m.spelling.toList ++ rest) = false ∧
      startsName (m.spelling.toList ++ rest) = false := by
  revert h
  cases m <;> first | exact fun _ ↦ ⟨rfl, rfl⟩ | exact fun h ↦ absurd h (by decide)

/-- No symbol stands before a longer one. -/
theorem pairwise_symbols : Mark.symbols.Pairwise fun m m' ↦
    m'.spelling.toList.length ≤ m.spelling.toList.length := by
  decide

/-! ### Reading -/

section Reading

variable {cs word : List Char} {t : Token} {r : Reading}

/-- The symbol that is read is the longest one there. -/
theorem length_le_of_readSymbol? (h : readSymbol? cs = some r) :
    ∀ m ∈ Mark.symbols, m.spelling.toList <+: cs → m.spelling.toList.length ≤ r.word.length := by
  obtain ⟨before, m₀, after, hsymbols, hm₀, hbefore⟩ := List.findSome?_eq_some_iff.1 h
  have hr : r.word = m₀.spelling.toList := by
    dsimp only at hm₀
    split at hm₀
    · rw [← Option.some.inj hm₀]
    · cases hm₀
  intro m hm hfront
  have hpairwise := pairwise_symbols
  rw [hsymbols, List.pairwise_append, List.pairwise_cons] at hpairwise
  rw [hsymbols, List.mem_append, List.mem_cons] at hm
  rcases hm with hm | rfl | hm
  · have hnone := hbefore m hm
    dsimp only at hnone
    rw [if_pos (List.isPrefixOf_iff_prefix.2 hfront)] at hnone
    cases hnone
  · rw [hr]
  · rw [hr]
    exact hpairwise.2.1.1 m hm

theorem longest_number (h : startsNumber cs) :
    Longest (.number (NumberWord.ofPrefix cs).value) (NumberWord.ofPrefix cs).word cs where
  spelled := .number (NumberWord.wellFormed_ofPrefix h)
  isPrefix := NumberWord.word_ofPrefix_isPrefix cs
  length_le := by
    rintro t _ hspelled ⟨rest, rfl⟩
    rcases hspelled.elim with ⟨n, hn, -, rfl⟩ | ⟨hstart, -⟩ | ⟨m, hm, -, rfl⟩
    · exact (NumberWord.word_isPrefix_ofPrefix hn rest).length_le
    · rw [startsNumber_of_startsName (startsName_append hstart rest)] at h
      cases h
    · rw [(starts_symbol hm rest).1] at h
      cases h

theorem longest_name (h : startsName cs) :
    Longest (ofWord (String.ofList (cs.takeWhile isNameChar))) (cs.takeWhile isNameChar) cs where
  spelled := by
    refine ofWord_spelledBy ?_ List.all_takeWhile
    cases cs with
    | nil => cases h
    | cons c cs =>
      have hc : isNameStart c := h
      have hchar : isNameChar c := isNameChar_of_isNameStart hc
      rw [List.takeWhile_cons_of_pos hchar]
      exact hc
  isPrefix := List.takeWhile_prefix _
  length_le := by
    rintro t word hspelled ⟨rest, rfl⟩
    rcases hspelled.elim with ⟨n, hn, -, rfl⟩ | ⟨-, hall, -⟩ | ⟨m, hm, -, rfl⟩
    · have hnumber := NumberWord.startsNumber_append hn rest
      rw [startsNumber_of_startsName h] at hnumber
      cases hnumber
    · rw [List.takeWhile_append_of_pos (List.all_eq_true.1 hall)]
      exact (List.prefix_append _ _).length_le
    · rw [(starts_symbol hm rest).2] at h
      cases h

theorem longest_symbol (hnumber : startsNumber cs = false) (hname : startsName cs = false)
    (h : readSymbol? cs = some r) : Longest r.token r.word cs where
  spelled := by
    obtain ⟨m, -, hm⟩ := List.exists_of_findSome?_eq_some h
    dsimp only at hm
    split at hm
    · rw [← Option.some.inj hm]
      exact .mark m
    · cases hm
  isPrefix := by
    have hread : read? cs = some r := by
      rw [read?, hnumber, hname]
      exact h
    exact (read?_spec hread).1
  length_le := by
    rintro t word hspelled hfront
    rcases hspelled.elim with ⟨n, hn, -, rfl⟩ | ⟨hstart, -⟩ | ⟨m, hm, -, rfl⟩
    · obtain ⟨rest, rfl⟩ := hfront
      rw [NumberWord.startsNumber_append hn] at hnumber
      cases hnumber
    · obtain ⟨rest, rfl⟩ := hfront
      rw [startsName_append hstart] at hname
      cases hname
    · exact length_le_of_readSymbol? h m hm hfront

/-- What is read is a longest word, and the text after it. -/
theorem longest_of_read? (h : read? cs = some r) : Longest r.token r.word cs := by
  unfold read? at h
  split at h
  · next hnumber =>
    obtain rfl := Option.some.inj h
    exact longest_number hnumber
  · next hnumber =>
    split at h
    · next hname =>
      obtain rfl := Option.some.inj h
      exact longest_name hname
    · next hname =>
      exact longest_symbol (Bool.eq_false_iff.2 hnumber) (Bool.eq_false_iff.2 hname) h

/-- Where a token is spelled, one is read. -/
theorem read?_ne_none (h : t.SpelledBy word) (hfront : word <+: cs) : read? cs ≠ none := by
  obtain ⟨rest, rfl⟩ := hfront
  rcases h.elim with ⟨n, hn, -, rfl⟩ | ⟨hstart, -⟩ | ⟨m, hm, -, rfl⟩
  · rw [read?, if_pos (NumberWord.startsNumber_append hn rest)]
    exact Option.some_ne_none _
  · have hname := startsName_append hstart rest
    rw [read?, startsNumber_of_startsName hname, if_neg Bool.false_ne_true, if_pos hname]
    exact Option.some_ne_none _
  · obtain ⟨hnumber, hname⟩ := starts_symbol hm rest
    rw [read?, hnumber, hname, if_neg Bool.false_ne_true, if_neg Bool.false_ne_true]
    intro hnone
    have hm := List.findSome?_eq_none_iff.1 hnone m hm
    dsimp only at hm
    rw [if_pos (List.isPrefixOf_iff_prefix.2 (List.prefix_append _ _))] at hm
    cases hm

/-- Nothing is read exactly where no token is spelled. -/
theorem read?_eq_none_iff : read? cs = none ↔ ∀ t word, SpelledBy t word → ¬ word <+: cs := by
  constructor
  · intro h t word hspelled hfront
    exact read?_ne_none hspelled hfront h
  · intro h
    cases hread : read? cs with
    | none => rfl
    | some r =>
      have hlongest := longest_of_read? hread
      exact absurd hlongest.isPrefix (h _ _ hlongest.spelled)

end Reading

/-! ### A word spells one token -/

/-- A word of a token, by itself, is read as this token. -/
theorem SpelledBy.read?_self {t : Token} {word : List Char} (h : t.SpelledBy word) :
    (read? word).map (·.token) = some t := by
  rcases h.elim with ⟨n, hn, rfl, rfl⟩ | ⟨hstart, hall, rfl⟩ | ⟨m, hm, rfl, rfl⟩
  · have hnumber := NumberWord.startsNumber_append hn []
    rw [List.append_nil] at hnumber
    rw [read?, if_pos hnumber, NumberWord.ofPrefix_word hn]
    rfl
  · have htake : word.takeWhile isNameChar = word :=
      List.takeWhile_eq_self_iff.2 (List.all_eq_true.1 hall)
    rw [read?, startsNumber_of_startsName hstart, if_neg Bool.false_ne_true, if_pos hstart, htake]
    rfl
  · cases m <;> rfl

theorem SpelledBy.unique {t t' : Token} {word : List Char} (h : t.SpelledBy word)
    (h' : t'.SpelledBy word) : t = t' :=
  Option.some.inj (h.read?_self.symm.trans h'.read?_self)

theorem Longest.unique {t t' : Token} {word word' cs : List Char} (h : t.Longest word cs)
    (h' : t'.Longest word' cs) : t = t' ∧ word = word' := by
  have hle := h'.length_le t word h.spelled h.isPrefix
  have hge := h.length_le t' word' h'.spelled h'.isPrefix
  obtain rfl : word = word' :=
    (List.prefix_of_prefix_length_le h.isPrefix h'.isPrefix hle).eq_of_length (hle.antisymm hge)
  exact ⟨h.spelled.unique h'.spelled, rfl⟩

/-- What is read is the longest word of a token at the front of the text. -/
theorem read?_eq_some_iff {cs : List Char} {r : Reading} :
    read? cs = some r ↔ r.token.Longest r.word cs ∧ r.rest = cs.drop r.word.length := by
  constructor
  · intro h
    exact ⟨longest_of_read? h, (read?_spec h).2.2⟩
  · rintro ⟨hlongest, hrest⟩
    have hsome := read?_ne_none hlongest.spelled hlongest.isPrefix
    obtain ⟨r', hread⟩ := Option.ne_none_iff_exists'.1 hsome
    obtain ⟨htoken, hword⟩ := (longest_of_read? hread).unique hlongest
    have hrest' : r'.rest = r.rest := by rw [(read?_spec hread).2.2, hword, hrest]
    rw [hread]
    cases r
    cases r'
    subst htoken hword hrest'
    rfl

theorem SpelledBy.ne_nil {t : Token} {word : List Char} (h : t.SpelledBy word) : word ≠ [] := by
  rintro rfl
  cases h.read?_self

end Token

/-! ### The characters of words -/

/-- The characters from `!` to `~`. Each of them is one byte long and no blank. -/
def isVisible (c : Char) : Bool :=
  32 < c.toNat && c.toNat < 127

theorem isVisible_of_isNameChar {c : Char} (h : isNameChar c) : isVisible c := by
  delta isNameChar Char.isAlphanum Char.isAlpha Char.isUpper Char.isLower Char.isDigit at h
  simp only [Bool.or_eq_true, Bool.and_eq_true, decide_eq_true_eq, beq_iff_eq,
    UInt32.le_iff_toNat_le, ge_iff_le] at h
  simp only [isVisible, Bool.and_eq_true, decide_eq_true_eq]
  have hupper : 'A'.val.toNat = 65 ∧ 'Z'.val.toNat = 90 := ⟨rfl, rfl⟩
  have hlower : 'a'.val.toNat = 97 ∧ 'z'.val.toNat = 122 := ⟨rfl, rfl⟩
  have hdigit : '0'.val.toNat = 48 ∧ '9'.val.toNat = 57 := ⟨rfl, rfl⟩
  have hc : c.toNat = c.val.toNat := rfl
  rcases h with ((h | h) | h) | rfl
  · omega
  · omega
  · omega
  · decide

theorem isVisible_of_isDigit {c : Char} (h : c.isDigit) : isVisible c := by
  refine isVisible_of_isNameChar ?_
  rw [isNameChar, Char.isAlphanum, h, Bool.or_true, Bool.true_or]

theorem utf8Size_of_isVisible {c : Char} (h : isVisible c) : c.utf8Size = 1 := by
  simp only [isVisible, Bool.and_eq_true, decide_eq_true_eq] at h
  rw [Char.utf8Size_eq_one_iff, UInt32.le_iff_toNat_le]
  exact Nat.le_of_lt_succ (h.2.trans (by decide))

theorem isBlank_of_isVisible {c : Char} (h : isVisible c) : isBlank c = false := by
  rw [Bool.eq_false_iff]
  intro hblank
  simp only [isBlank, Bool.or_eq_true, beq_iff_eq] at hblank
  rcases hblank with (((rfl | rfl) | rfl) | rfl) | rfl <;> exact absurd h (by decide)

/-- A numeral is made of digits, a point, a letter and a sign. -/
theorem NumberWord.forall_mem_word {p : Char → Prop} (hdigit : ∀ c, c.isDigit → p c)
    (hothers : ∀ c ∈ ['.', 'e', 'E', '+', '-'], p c) {n : NumberWord} (h : n.WellFormed) :
    ∀ c ∈ n.word, p c := by
  have hdigits {ds : List Char} (hds : IsDigits ds) : ∀ c ∈ ds, p c :=
    fun c hc ↦ hdigit c (hds c hc)
  have hfraction : ∀ c ∈ n.fraction, p c := by
    rcases h.fraction with hnil | ⟨digits, hfraction, hds⟩
    · simp [hnil]
    · rw [hfraction]
      exact List.forall_mem_cons.2 ⟨hothers _ (by decide), hdigits hds⟩
  have hexponent : ∀ c ∈ n.exponent, p c := by
    rcases h.exponent with hnil | ⟨letter, sign, digits, hexponent, hletter, hsign, -, hds⟩
    · simp [hnil]
    · have hletters : ['e', 'E'] ⊆ ['.', 'e', 'E', '+', '-'] := by decide
      have hsigns : ∀ cs ∈ [[], ['+'], ['-']], cs ⊆ ['.', 'e', 'E', '+', '-'] := by decide
      rw [hexponent]
      refine List.forall_mem_cons.2 ⟨hothers _ (hletters hletter), ?_⟩
      exact List.forall_mem_append.2 ⟨fun c hc ↦ hothers c (hsigns sign hsign hc), hdigits hds⟩
  rw [word]
  exact List.forall_mem_append.2 ⟨List.forall_mem_append.2 ⟨hdigits h.whole, hfraction⟩, hexponent⟩

namespace Token

/-- Tokens are spelled in visible characters. -/
theorem SpelledBy.isVisible {t : Token} {word : List Char} (h : t.SpelledBy word) :
    ∀ c ∈ word, Waypoints.isVisible c := by
  rcases h.elim with ⟨n, hn, -, rfl⟩ | ⟨-, hall, -⟩ | ⟨m, -, -, rfl⟩
  · exact NumberWord.forall_mem_word (fun _ ↦ isVisible_of_isDigit) (List.all_eq_true.1 rfl) hn
  · exact fun c hc ↦ isVisible_of_isNameChar (List.all_eq_true.1 hall c hc)
  · refine List.all_eq_true.1 ?_
    cases m <;> rfl

end Token

end Waypoints
