import Waypoints.Proofs.Lexing.Layout
/-!
# Words before delimiters

A comma or a closing bracket ends every number and name, and no longer token starts with one of the
marks of `Mark.solitary`. So the words of tokens make up a row with these delimiters between them
(`Spelled.append`), whatever the words are, and the row is read as its tokens (`Spelled.lexemes`).
-/

set_option autoImplicit false
set_option relaxedAutoImplicit false

namespace Waypoints

/-! ### Delimiters -/

/-- A text that is empty or starts with a comma or a closing bracket. -/
def Delimited (cs : List Char) : Prop :=
  ∀ c ∈ cs.head?, c ∈ [',', ')', ']']

theorem delimited_nil : Delimited [] :=
  nofun

theorem delimited_cons {c : Char} (h : c ∈ [',', ')', ']']) (cs : List Char) :
    Delimited (c :: cs) := by
  intro d hd
  obtain rfl := Option.some.inj hd
  exact h

section Words

variable {rest : List Char}

theorem Delimited.append {cs : List Char} (h : Delimited cs) (hrest : Delimited rest) :
    Delimited (cs ++ rest) := by
  cases cs with
  | nil => exact hrest
  | cons c cs => exact h

/-- Nothing before a delimiter goes on with it. -/
theorem Delimited.takeWhile_eq_nil (h : Delimited rest) {p : Char → Bool}
    (hp : [',', ')', ']'].all (!p ·)) : rest.takeWhile p = [] := by
  cases rest with
  | nil => rfl
  | cons c cs =>
    have hc := List.all_eq_true.1 hp c (h c rfl)
    rw [Bool.not_eq_true'] at hc
    rw [List.takeWhile_cons_of_neg (Bool.eq_false_iff.1 hc)]

theorem Delimited.takeFraction_eq_nil (h : Delimited rest) : takeFraction rest = [] := by
  unfold takeFraction
  split
  · next cs => exact absurd (h '.' rfl) (by decide)
  · rfl

theorem Delimited.takeExponent_eq_nil (h : Delimited rest) : takeExponent rest = [] := by
  cases rest with
  | nil => rfl
  | cons c cs =>
    have hc : (c == 'e' || c == 'E') = false := by
      have hall : [',', ')', ']'].all (fun c ↦ !(c == 'e' || c == 'E')) = true := rfl
      exact (Bool.not_eq_true' _).mp (List.all_eq_true.1 hall c (h c rfl))
    rw [takeExponent, hc]
    rfl

/-- A numeral before a delimiter is read as it is written. -/
theorem NumberWord.ofPrefix_of_delimited {n : NumberWord} (h : n.WellFormed)
    (hrest : Delimited rest) : ofPrefix (n.word ++ rest) = n := by
  have hdigits : rest.takeWhile Char.isDigit = [] := hrest.takeWhile_eq_nil rfl
  have hnone : ofPrefix rest = ⟨[], [], []⟩ := by
    simp only [ofPrefix, hdigits, List.length_nil, List.drop_zero, List.append_nil,
      hrest.takeFraction_eq_nil, hrest.takeExponent_eq_nil]
  obtain ⟨whole, fraction, exponent⟩ := n
  rw [ofPrefix_append h]
  split
  · rw [hdigits, List.append_nil]
  · next hexponent =>
    obtain rfl : exponent = [] := not_not.1 hexponent
    split
    · simp only [hdigits, List.append_nil, List.length_nil, List.drop_zero,
        hrest.takeExponent_eq_nil]
    · next hfraction =>
      obtain rfl : fraction = [] := not_not.1 hfraction
      simp only [hnone, List.append_nil]

namespace Token

theorem longest_number_of_delimited {n : NumberWord} (h : n.WellFormed) (hrest : Delimited rest) :
    Longest (.number n.value) n.word (n.word ++ rest) := by
  have hlongest := longest_number (NumberWord.startsNumber_append h rest)
  rwa [NumberWord.ofPrefix_of_delimited h hrest] at hlongest

theorem longest_name_of_delimited {word : String} (h : IsName word) (hrest : Delimited rest) :
    Longest (.name word) word.toList (word.toList ++ rest) := by
  obtain ⟨hstart, hall, hmark⟩ := isName_iff.1 h
  have hlongest := longest_name (startsName_append hstart rest)
  rw [List.takeWhile_append_of_pos (List.all_eq_true.1 hall), hrest.takeWhile_eq_nil rfl,
    List.append_nil, String.ofList_toList, ofWord, hmark] at hlongest
  exact hlongest

end Token

/-- The marks that no longer token starts with. -/
def Mark.solitary : List Mark :=
  [parenOpen, parenClose, bracketOpen, bracketClose, comma, minus]

theorem Token.longest_solitary {m : Mark} (h : m ∈ Mark.solitary) (cs : List Char) :
    Longest (.mark m) m.spelling.toList (m.spelling.toList ++ cs) := by
  have hread : read? (m.spelling.toList ++ cs) = some ⟨.mark m, m.spelling.toList, cs⟩ := by
    simp only [Mark.solitary, List.mem_cons, List.not_mem_nil, or_false] at h
    rcases h with rfl | rfl | rfl | rfl | rfl | rfl <;> rfl
  exact longest_of_read? hread

end Words

/-! ### Rows -/

theorem chunkText_append (as bs : List Chunk) :
    chunkText (as ++ bs) = chunkText as ++ chunkText bs :=
  List.flatMap_append

theorem Chunked.append {rest : List Char} {as bs : List Chunk}
    (has : Chunked (chunkText bs ++ rest) as) (hbs : Chunked rest bs) :
    Chunked rest (as ++ bs) := by
  induction has with
  | nil => exact hbs
  | cons longest blank _ ih =>
    refine .cons ?_ blank ih
    rw [← List.append_assoc (chunkText _), ← chunkText_append] at longest
    exact longest

/-- A text that consists of words of tokens, with blanks after them, whatever delimiter follows. -/
def Spelled (ts : List Token) (cs : List Char) : Prop :=
  ∃ chunks, chunks.map (·.token) = ts ∧ chunkText chunks = cs ∧
    ∀ rest, Delimited rest → Chunked rest chunks

namespace Spelled

variable {ts us : List Token} {cs ds : List Char}

theorem nil : Spelled [] [] :=
  ⟨[], rfl, rfl, fun _ _ ↦ .nil⟩

/-- A word that is the longest one before every delimiter. -/
theorem single {t : Token} {word : List Char}
    (h : ∀ rest, Delimited rest → t.Longest word (word ++ rest)) : Spelled [t] word := by
  refine ⟨[⟨t, word, []⟩], rfl, ?_, fun rest hrest ↦ .cons (h rest hrest) rfl .nil⟩
  rw [chunkText_cons, List.append_nil]
  exact List.append_nil _

theorem number {n : NumberWord} (h : n.WellFormed) : Spelled [.number n.value] n.word :=
  single fun _ hrest ↦ Token.longest_number_of_delimited h hrest

theorem name {word : String} (h : Token.IsName word) : Spelled [.name word] word.toList :=
  single fun _ hrest ↦ Token.longest_name_of_delimited h hrest

/-- A solitary mark before a text, with blanks between them. -/
theorem mark (h : Spelled ts cs) {m : Mark} (hm : m ∈ Mark.solitary) (gap : List Char)
    (hgap : gap.all isBlank) : Spelled (.mark m :: ts) (m.spelling.toList ++ (gap ++ cs)) := by
  obtain ⟨chunks, rfl, rfl, hchunks⟩ := h
  refine ⟨⟨.mark m, m.spelling.toList, gap⟩ :: chunks, rfl, ?_, fun rest hrest ↦ ?_⟩
  · rw [chunkText_cons, List.append_assoc]
  · exact .cons (Token.longest_solitary hm _) hgap (hchunks rest hrest)

/-- A text before one that starts with a delimiter. -/
theorem append (h : Spelled ts cs) (h' : Spelled us ds) (hds : Delimited ds) :
    Spelled (ts ++ us) (cs ++ ds) := by
  obtain ⟨chunks, rfl, rfl, hchunks⟩ := h
  obtain ⟨chunks', rfl, rfl, hchunks'⟩ := h'
  refine ⟨chunks ++ chunks', List.map_append, chunkText_append _ _, fun rest hrest ↦ ?_⟩
  exact (hchunks _ (hds.append hrest)).append (hchunks' rest hrest)

/-- A text of tokens is read as these tokens. -/
theorem lexemes_ok (h : Spelled ts cs) :
    ∃ ls, lexemes 0 cs = .ok ls ∧ ls.map (·.token) = ts := by
  obtain ⟨chunks, rfl, rfl, hchunks⟩ := h
  have hgap : ([] : List Char).all isBlank := rfl
  exact ⟨_, lexemes_of_chunked hgap (hchunks [] delimited_nil) 0, map_token_chunkLexemes _ _⟩

end Spelled

end Waypoints
