import Waypoints.Proofs.Lexing.Spelled
/-!
# Texts as rows of tokens

A `Chunk` is a token with the word that spells it and the blanks after it. Every text is a row of
chunks after some blanks, up to its end or to a place where no token starts
(`exists_chunks`), and `lexemes_chunks` reads the tokens off the row. So what `lexemes` returns, and
where it refuses a text, is told by the row (`exists_chunks_of_lexemes`).
-/

set_option autoImplicit false
set_option relaxedAutoImplicit false

namespace Waypoints

/-- A token, the word that spells it, and the blanks after it. -/
structure Chunk where
  token : Token
  word : List Char
  gap : List Char

/-- The text of a row of chunks. -/
def chunkText (chunks : List Chunk) : List Char :=
  chunks.flatMap fun chunk ↦ chunk.word ++ chunk.gap

/-- The tokens of a row of chunks that starts at an offset. -/
def chunkLexemes (offset : Nat) : List Chunk → List Lexeme
  | [] => []
  | chunk :: chunks =>
    ⟨chunk.token, offset⟩ ::
      chunkLexemes (offset + chunk.word.length + chunk.gap.length) chunks

/-- Every word of a row of chunks is the longest one where it stands, with some text after the row,
and the gaps are blank. -/
inductive Chunked (rest : List Char) : List Chunk → Prop
  | nil : Chunked rest []
  | cons {chunk : Chunk} {chunks : List Chunk}
    (longest : chunk.token.Longest chunk.word
      (chunk.word ++ (chunk.gap ++ (chunkText chunks ++ rest))))
    (blank : chunk.gap.all isBlank) (chunked : Chunked rest chunks) : Chunked rest (chunk :: chunks)

/-- A text that starts neither with a blank nor with a token, unless it is empty. -/
def Stuck (cs : List Char) : Prop :=
  cs.head?.all (!isBlank ·) ∧ Token.read? cs = none

theorem chunkText_cons (chunk : Chunk) (chunks : List Chunk) :
    chunkText (chunk :: chunks) = chunk.word ++ chunk.gap ++ chunkText chunks :=
  List.flatMap_cons

theorem length_chunkText_cons (chunk : Chunk) (chunks : List Chunk) :
    (chunkText (chunk :: chunks)).length =
      chunk.word.length + chunk.gap.length + (chunkText chunks).length := by
  rw [chunkText_cons, List.length_append, List.length_append]

/-- Every text is a row of chunks after some blanks, up to a place where it is stuck. -/
theorem exists_chunks (cs : List Char) :
    ∃ gap chunks rest, cs = gap ++ (chunkText chunks ++ rest) ∧ gap.all isBlank ∧
      Chunked rest chunks ∧ Stuck rest := by
  -- along the recursion of the reader, whatever the offset
  induction 0, cs using lexemes.induct with
  | case1 => exact ⟨[], [], [], rfl, rfl, .nil, rfl, rfl⟩
  | case2 offset c cs hblank ih =>
    obtain ⟨gap, chunks, rest, rfl, hgap, hchunks, hrest⟩ := ih
    exact ⟨c :: gap, chunks, rest, rfl, by simp [hblank, hgap], hchunks, hrest⟩
  | case3 offset c cs hblank hread =>
    exact ⟨[], [], c :: cs, rfl, rfl, .nil, by simpa using hblank, hread⟩
  | case4 offset c cs hblank r hread ih =>
    obtain ⟨gap, chunks, rest, heq, hgap, hchunks, hrest⟩ := ih
    have hcs : c :: cs = r.word ++ (gap ++ (chunkText chunks ++ rest)) := by
      rw [← heq, Token.read?_append hread]
    refine ⟨[], ⟨r.token, r.word, gap⟩ :: chunks, rest, ?_, rfl, .cons ?_ hgap hchunks, hrest⟩
    · simp [chunkText_cons, hcs]
    · rw [← hcs]
      exact Token.longest_of_read? hread

theorem lexemes_gap {gap : List Char} (h : gap.all isBlank) (offset : Nat) (cs : List Char) :
    lexemes offset (gap ++ cs) = lexemes (offset + gap.length) cs := by
  induction gap generalizing offset with
  | nil => rfl
  | cons c gap ih =>
    rw [List.all_cons, Bool.and_eq_true] at h
    rw [List.cons_append, lexemes_blank h.1, ih h.2, List.length_cons, Nat.add_assoc,
      Nat.add_comm 1]

/-- The tokens of a text that starts with a row of chunks are those of the row and then those of the
rest of the text. -/
theorem lexemes_chunks {rest : List Char} {chunks : List Chunk} (h : Chunked rest chunks)
    (offset : Nat) :
    lexemes offset (chunkText chunks ++ rest) =
      (chunkLexemes offset chunks ++ ·) <$> lexemes (offset + (chunkText chunks).length) rest := by
  induction h generalizing offset with
  | nil => simp [chunkText, chunkLexemes]
  | @cons chunk chunks hlongest hblank hchunks ih =>
    have hread : Token.read? (chunk.word ++ (chunk.gap ++ (chunkText chunks ++ rest))) =
        some ⟨chunk.token, chunk.word, chunk.gap ++ (chunkText chunks ++ rest)⟩ :=
      Token.read?_eq_some_iff.2 ⟨hlongest, List.drop_left.symm⟩
    rw [chunkText_cons, List.append_assoc, List.append_assoc, lexemes_of_read? hread]
    dsimp only
    have hoffset : offset + (chunk.word ++ chunk.gap ++ chunkText chunks).length =
        offset + chunk.word.length + chunk.gap.length + (chunkText chunks).length := by
      simp only [List.length_append, Nat.add_assoc]
    rw [lexemes_gap hblank, ih, hoffset]
    rcases lexemes _ rest with e | later <;> rfl

/-- A row of chunks that makes up a text gives its tokens. -/
theorem lexemes_of_chunked {gap : List Char} {chunks : List Chunk} (hgap : gap.all isBlank)
    (hchunks : Chunked [] chunks) (offset : Nat) :
    lexemes offset (gap ++ chunkText chunks) = .ok (chunkLexemes (offset + gap.length) chunks) := by
  have hrow := lexemes_chunks hchunks (offset + gap.length)
  rw [List.append_nil] at hrow
  rw [lexemes_gap hgap, hrow, lexemes]
  simp

/-- Where a text is stuck, the character there is refused. -/
theorem lexemes_stuck {c : Char} {cs : List Char} (h : Stuck (c :: cs)) (offset : Nat) :
    lexemes offset (c :: cs) = .error ⟨offset, .unexpectedCharacter c⟩ := by
  have hblank : ¬ isBlank c = true := by simpa [Stuck] using h.1
  rw [lexemes, if_neg hblank]
  split
  · rfl
  · next hread =>
    rw [h.2] at hread
    cases hread

/-- The row of chunks that a text starts with tells its tokens, or the character that is refused. -/
theorem exists_chunks_of_lexemes (offset : Nat) (cs : List Char) :
    ∃ gap chunks rest, cs = gap ++ (chunkText chunks ++ rest) ∧ gap.all isBlank ∧
      Chunked rest chunks ∧ Stuck rest ∧
      lexemes offset cs = match rest with
        | [] => .ok (chunkLexemes (offset + gap.length) chunks)
        | c :: _ => .error
          ⟨offset + gap.length + (chunkText chunks).length, .unexpectedCharacter c⟩ := by
  obtain ⟨gap, chunks, rest, rfl, hgap, hchunks, hrest⟩ := exists_chunks cs
  refine ⟨gap, chunks, rest, rfl, hgap, hchunks, hrest, ?_⟩
  cases rest with
  | nil =>
    rw [List.append_nil]
    exact lexemes_of_chunked hgap hchunks offset
  | cons c rest =>
    rw [lexemes_gap hgap, lexemes_chunks hchunks, lexemes_stuck hrest]
    rfl

/-- A text is some blanks and a row of chunks. -/
structure Laid (text : String) (gap : List Char) (chunks : List Chunk) : Prop where
  toList_eq : text.toList = gap ++ chunkText chunks
  blank : gap.all isBlank
  chunked : Chunked [] chunks

theorem Laid.lexemes_eq {text : String} {gap : List Char} {chunks : List Chunk}
    (h : Laid text gap chunks) : lexemes 0 text.toList = .ok (chunkLexemes gap.length chunks) := by
  rw [h.toList_eq, lexemes_of_chunked h.blank h.chunked, Nat.zero_add]

theorem exists_laid {text : String} {ls : List Lexeme} (h : lexemes 0 text.toList = .ok ls) :
    ∃ gap chunks, Laid text gap chunks := by
  obtain ⟨gap, chunks, rest, htext, hgap, hchunks, -, hlexemes⟩ :=
    exists_chunks_of_lexemes 0 text.toList
  rw [h] at hlexemes
  cases rest with
  | cons c rest => cases hlexemes
  | nil =>
    rw [List.append_nil] at htext
    exact ⟨gap, chunks, htext, hgap, hchunks⟩

end Waypoints
