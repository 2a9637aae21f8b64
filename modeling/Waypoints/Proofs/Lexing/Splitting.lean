import Waypoints.Proofs.Lexing.Delimited
/-!
# Texts split at delimiters

No token has a comma or a closing bracket after its first character. So a delimiter ends the word
before it: what is read before it is what would be read if the text ended there, and the tokens of a
text are those before a delimiter and then those from it on (`lexemes_append`). `ReadsAs` states
what the tokens of a text are without their offsets; a text with a delimiter in it is made of tokens
if and only if its two parts are (`readsAs_append_iff`).
-/

set_option autoImplicit false
set_option relaxedAutoImplicit false

namespace Waypoints

/-! ### Words -/

/-- A comma or a closing bracket. -/
def isDelimiter (c : Char) : Bool :=
  [',', ')', ']'].contains c

theorem Delimited.isDelimiter_of_cons {c : Char} {cs : List Char} (h : Delimited (c :: cs)) :
    isDelimiter c := by
  rw [isDelimiter, List.contains_iff_mem]
  exact h c rfl

/-- No delimiter is a character of names. -/
theorem isNameChar_of_isDelimiter {c : Char} (h : isDelimiter c) : isNameChar c = false := by
  have hall : [',', ')', ']'].all (!isNameChar ·) = true := rfl
  rw [isDelimiter, List.contains_iff_mem] at h
  exact (Bool.not_eq_true' _).mp (List.all_eq_true.1 hall c h)

theorem not_isDelimiter_of_isNameChar {c : Char} (h : isNameChar c) : ¬isDelimiter c := by
  intro hc
  rw [isNameChar_of_isDelimiter hc] at h
  cases h

theorem not_isDelimiter_of_isDigit {c : Char} (h : c.isDigit) : ¬isDelimiter c := by
  refine not_isDelimiter_of_isNameChar ?_
  rw [isNameChar, Char.isAlphanum, h, Bool.or_true, Bool.true_or]

namespace Token

variable {t : Token} {word cs rest : List Char}

/-- A delimiter in a word is its first character. -/
theorem SpelledBy.not_isDelimiter_of_mem_tail (h : t.SpelledBy word) :
    ∀ c ∈ word.tail, ¬isDelimiter c := by
  rcases h.elim with ⟨n, hn, -, rfl⟩ | ⟨-, hall, -⟩ | ⟨m, -, -, rfl⟩
  · have hnumber := NumberWord.forall_mem_word (fun _ ↦ not_isDelimiter_of_isDigit)
      (List.any_eq_false.1 rfl) hn
    exact fun c hc ↦ hnumber c (List.mem_of_mem_tail hc)
  · exact fun c hc ↦
      not_isDelimiter_of_isNameChar (List.all_eq_true.1 hall c (List.mem_of_mem_tail hc))
  · refine List.any_eq_false.1 ?_
    cases m <;> rfl

/-- A word at the front of a text does not reach into a delimiter after the text. -/
theorem SpelledBy.isPrefix_of_append (h : t.SpelledBy word) (hrest : Delimited rest)
    (hcs : cs ≠ []) (hfront : word <+: cs ++ rest) : word <+: cs := by
  rcases List.prefix_or_prefix_of_prefix hfront (List.prefix_append cs rest) with hword | ⟨v, rfl⟩
  · exact hword
  rw [List.prefix_append_right_inj] at hfront
  cases v with
  | nil => rw [List.append_nil]
  | cons c v =>
    obtain ⟨later, rfl⟩ := hfront
    have hdelimiter := hrest.isDelimiter_of_cons
    obtain ⟨d, ds, rfl⟩ := List.exists_cons_of_ne_nil hcs
    exact absurd hdelimiter (h.not_isDelimiter_of_mem_tail c (by simp))

/-- What is read at the front of a text does not depend on a delimiter after the text. -/
theorem read?_append_of_delimited (hrest : Delimited rest) (hcs : cs ≠ []) :
    read? (cs ++ rest) = (read? cs).map fun r ↦ { r with rest := r.rest ++ rest } := by
  cases hread : read? cs with
  | none =>
    rw [Option.map_none, read?_eq_none_iff]
    intro t word hspelled hfront
    exact read?_eq_none_iff.1 hread t word hspelled (hspelled.isPrefix_of_append hrest hcs hfront)
  | some r =>
    obtain ⟨hlongest, hdrop⟩ := read?_eq_some_iff.1 hread
    refine read?_eq_some_iff.2 ⟨⟨hlongest.spelled, ?_, ?_⟩, ?_⟩
    · exact hlongest.isPrefix.trans (List.prefix_append _ _)
    · intro t' word' hspelled hfront
      exact hlongest.length_le t' word' hspelled (hspelled.isPrefix_of_append hrest hcs hfront)
    · dsimp only
      rw [hdrop, List.drop_append_of_le_length hlongest.isPrefix.length_le]

end Token

/-! ### Texts -/

/-- Where no token starts, the text is refused. -/
theorem lexemes_of_read?_eq_none {c : Char} {cs : List Char} (hblank : ¬ isBlank c = true)
    (h : Token.read? (c :: cs) = none) (offset : Nat) :
    lexemes offset (c :: cs) = .error ⟨offset, .unexpectedCharacter c⟩ :=
  lexemes_stuck ⟨by simpa using hblank, h⟩ offset

/-- The tokens of a text are those before a delimiter and then those from it on. -/
theorem lexemes_append {rest : List Char} (hrest : Delimited rest) (offset : Nat)
    (cs : List Char) :
    lexemes offset (cs ++ rest) = do
      let ls ← lexemes offset cs
      let later ← lexemes (offset + cs.length) rest
      return ls ++ later := by
  induction offset, cs using lexemes.induct with
  | case1 offset =>
    rw [List.nil_append, lexemes]
    exact (bind_pure (lexemes offset rest)).symm
  | case2 offset c cs hblank ih =>
    rw [List.cons_append, lexemes_blank hblank, lexemes_blank hblank, ih, List.length_cons,
      Nat.add_right_comm, Nat.add_assoc]
  | case3 offset c cs hblank hread =>
    have hread' := Token.read?_append_of_delimited hrest (List.cons_ne_nil c cs)
    rw [hread] at hread'
    rw [lexemes_of_read?_eq_none hblank hread]
    exact lexemes_of_read?_eq_none hblank hread' offset
  | case4 offset c cs hblank r hread ih =>
    have hread' := Token.read?_append_of_delimited hrest (List.cons_ne_nil c cs)
    rw [hread] at hread'
    have hlength : offset + (c :: cs).length = offset + r.word.length + r.rest.length := by
      rw [← Token.read?_append hread, List.length_append, Nat.add_assoc]
    rw [lexemes_of_read? hread', lexemes_of_read? hread, hlength]
    dsimp only
    rw [ih]
    rcases lexemes _ r.rest with e | ls
    · rfl
    rcases lexemes _ rest with e | later <;> rfl

/-- A text is made of these tokens, wherever it stands. -/
def ReadsAs (cs : List Char) (ts : List Token) : Prop :=
  ∀ offset, ∃ ls, lexemes offset cs = .ok ls ∧ ls.map (·.token) = ts

/-- The tokens of a text do not depend on where it stands. -/
theorem readsAs_of_lexemes {offset : Nat} {cs : List Char} {ls : List Lexeme}
    (h : lexemes offset cs = .ok ls) : ReadsAs cs (ls.map (·.token)) := by
  obtain ⟨gap, chunks, rest, rfl, hgap, hchunks, -, hlexemes⟩ := exists_chunks_of_lexemes offset cs
  rw [h] at hlexemes
  cases rest with
  | cons c rest => cases hlexemes
  | nil =>
    obtain rfl := Except.ok.inj hlexemes
    intro offset'
    rw [List.append_nil]
    refine ⟨_, lexemes_of_chunked hgap hchunks offset', ?_⟩
    rw [map_token_chunkLexemes, map_token_chunkLexemes]

theorem readsAs_nil : ReadsAs [] [] :=
  fun _ ↦ ⟨[], by rw [lexemes], rfl⟩

section Splits

variable {cs rest : List Char} {ts us : List Token}

theorem ReadsAs.unique (h : ReadsAs cs ts) (h' : ReadsAs cs us) : ts = us := by
  obtain ⟨ls, hls, rfl⟩ := h 0
  obtain ⟨ls', hls', rfl⟩ := h' 0
  rw [Except.ok.inj (hls.symm.trans hls')]

/-- A text is made of tokens if and only if its parts before a delimiter and from it on are. -/
theorem readsAs_append_iff (hrest : Delimited rest) :
    ReadsAs (cs ++ rest) ts ↔ ∃ us vs, ts = us ++ vs ∧ ReadsAs cs us ∧ ReadsAs rest vs := by
  constructor
  · intro h
    obtain ⟨ls, hls, rfl⟩ := h 0
    rw [lexemes_append hrest] at hls
    cases hfirst : lexemes 0 cs with
    | error e =>
      rw [hfirst] at hls
      cases hls
    | ok first =>
      cases hlater : lexemes (0 + cs.length) rest with
      | error e =>
        rw [hfirst, hlater] at hls
        cases hls
      | ok later =>
        rw [hfirst, hlater] at hls
        obtain rfl : first ++ later = ls := Except.ok.inj hls
        exact ⟨_, _, List.map_append, readsAs_of_lexemes hfirst, readsAs_of_lexemes hlater⟩
  · rintro ⟨us, vs, rfl, hus, hvs⟩ offset
    obtain ⟨first, hfirst, rfl⟩ := hus offset
    obtain ⟨later, hlater, rfl⟩ := hvs (offset + cs.length)
    refine ⟨first ++ later, ?_, List.map_append⟩
    rw [lexemes_append hrest, hfirst, hlater]
    rfl

/-- Blanks before a text are passed over. -/
theorem ReadsAs.gap (h : ReadsAs cs ts) {gap : List Char} (hgap : gap.all isBlank) :
    ReadsAs (gap ++ cs) ts := by
  intro offset
  rw [lexemes_gap hgap]
  exact h _

/-- A solitary mark before a text is read before the tokens of the text. -/
theorem readsAs_mark_iff {m : Mark} (hm : m ∈ Mark.solitary) :
    ReadsAs (m.spelling.toList ++ cs) ts ↔ ∃ us, ts = .mark m :: us ∧ ReadsAs cs us := by
  have hread : Token.read? (m.spelling.toList ++ cs) = some ⟨.mark m, m.spelling.toList, cs⟩ :=
    Token.read?_eq_some_iff.2 ⟨Token.longest_solitary hm cs, List.drop_left.symm⟩
  constructor
  · intro h
    obtain ⟨ls, hls, rfl⟩ := h 0
    rw [lexemes_of_read? hread] at hls
    cases hlater : lexemes (0 + m.spelling.toList.length) cs with
    | error e =>
      rw [hlater] at hls
      cases hls
    | ok later =>
      rw [hlater] at hls
      obtain rfl : _ :: later = ls := Except.ok.inj hls
      exact ⟨_, rfl, readsAs_of_lexemes hlater⟩
  · rintro ⟨us, rfl, h⟩ offset
    obtain ⟨ls, hls, rfl⟩ := h (offset + m.spelling.toList.length)
    refine ⟨⟨.mark m, offset⟩ :: ls, ?_, rfl⟩
    rw [lexemes_of_read? hread, hls]
    rfl

end Splits

end Waypoints
