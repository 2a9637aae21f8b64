import Mathlib.Logic.Function.Iterate
import Waypoints.Expr.Parser
import Waypoints.Proofs.Lexing.Chunks
/-!
# Tokens tile a text

A `Span` is the word of a token at its place in a text, in bytes. `lexemes_tile` shows that the
spans of the tokens that are read cover all bytes of a text except the blanks, one after the other
and each with the longest word there, either up to the end of the text or up to the first character
that is neither blank nor the start of a token.
-/

set_option autoImplicit false
set_option relaxedAutoImplicit false

namespace Waypoints

/-! ### Bytes -/

/-- The bytes of a text. -/
def bytes (text : String) : List UInt8 :=
  text.toUTF8.data.toList

/-- The bytes of the characters between tokens. -/
def isBlankByte (b : UInt8) : Bool :=
  b == 0x20 || b == 0x09 || b == 0x0a || b == 0x0c || b == 0x0d

theorem bytes_eq (text : String) : bytes text = text.toList.flatMap String.utf8EncodeChar := by
  rw [bytes, String.toUTF8_eq_toByteArray, ← String.utf8Encode_toList, List.utf8Encode]
  simp

/-- Every character is one byte long. -/
def Narrow (cs : List Char) : Prop :=
  ∀ c ∈ cs, c.utf8Size = 1

theorem Narrow.append {cs ds : List Char} (h : Narrow cs) (h' : Narrow ds) : Narrow (cs ++ ds) :=
  List.forall_mem_append.2 ⟨h, h'⟩

theorem narrow_of_isBlank {cs : List Char} (h : cs.all isBlank) : Narrow cs := by
  intro c hc
  have hblank := List.all_eq_true.1 h c hc
  simp only [isBlank, Bool.or_eq_true, beq_iff_eq] at hblank
  rcases hblank with (((rfl | rfl) | rfl) | rfl) | rfl <;> rfl

theorem Token.SpelledBy.narrow {t : Token} {word : List Char} (h : t.SpelledBy word) :
    Narrow word :=
  fun c hc ↦ utf8Size_of_isVisible (h.isVisible c hc)

theorem Narrow.flatMap_utf8EncodeChar {cs : List Char} (h : Narrow cs) :
    cs.flatMap String.utf8EncodeChar = cs.map (·.val.toUInt8) := by
  induction cs with
  | nil => rfl
  | cons c cs ih =>
    obtain ⟨hc, hcs⟩ := List.forall_mem_cons.1 h
    rw [List.flatMap_cons, String.utf8EncodeChar_eq_singleton hc, ih hcs]
    rfl

theorem Narrow.utf8ByteSize {cs : List Char} (h : Narrow cs) :
    (String.ofList cs).utf8ByteSize = cs.length := by
  have hbytes := bytes_eq (String.ofList cs)
  rw [String.toList_ofList, h.flatMap_utf8EncodeChar] at hbytes
  have hlength := congrArg List.length hbytes
  rw [List.length_map] at hlength
  exact hlength

/-- Characters of one byte are told apart by it. -/
theorem val_toUInt8_beq {c d : Char} (hc : c.utf8Size = 1) (hd : d.utf8Size = 1) :
    (c.val.toUInt8 == d.val.toUInt8) = (c == d) := by
  rw [Char.utf8Size_eq_one_iff, UInt32.le_iff_toNat_le] at hc hd
  have hlimit : (127 : UInt32).toNat = 127 := rfl
  rw [Bool.eq_iff_iff, beq_iff_eq, beq_iff_eq, Char.ext_iff, ← UInt8.toNat_inj, ← UInt32.toNat_inj,
    UInt32.toNat_toUInt8, UInt32.toNat_toUInt8]
  omega

/-- A character of one byte is blank if its byte is. -/
theorem isBlankByte_val {c : Char} (h : c.utf8Size = 1) :
    isBlankByte c.val.toUInt8 = isBlank c := by
  change (c.val.toUInt8 == ' '.val.toUInt8 || c.val.toUInt8 == '\t'.val.toUInt8 ||
    c.val.toUInt8 == '\n'.val.toUInt8 || c.val.toUInt8 == '\x0c'.val.toUInt8 ||
    c.val.toUInt8 == '\r'.val.toUInt8) = _
  rw [val_toUInt8_beq h rfl, val_toUInt8_beq h rfl, val_toUInt8_beq h rfl, val_toUInt8_beq h rfl,
    val_toUInt8_beq h rfl, isBlank]

/-- The bytes of a text that starts with characters of one byte each. -/
theorem getElem?_bytes {text : String} {cs rest : List Char} (h : text.toList = cs ++ rest)
    (hcs : Narrow cs) {k : Nat} (hk : k < cs.length) :
    (bytes text)[k]? = some cs[k].val.toUInt8 := by
  rw [bytes_eq, h, List.flatMap_append, hcs.flatMap_utf8EncodeChar,
    List.getElem?_append_left (by rwa [List.length_map]), List.getElem?_map,
    List.getElem?_eq_getElem hk]
  rfl

/-- A character whose first byte is blank is blank: the first byte of a longer one is large. -/
theorem isBlank_of_head?_utf8EncodeChar {c : Char} {b : UInt8}
    (hb : (String.utf8EncodeChar c).head? = some b) (hblank : isBlankByte b) : isBlank c := by
  have hsmall : b.toNat ≤ 32 := by
    simp only [isBlankByte, Bool.or_eq_true, beq_iff_eq] at hblank
    rcases hblank with (((rfl | rfl) | rfl) | rfl) | rfl <;> decide
  by_cases hc : c.val.toNat ≤ 127
  · have hsize : c.utf8Size = 1 := by
      rw [Char.utf8Size_eq_one_iff, UInt32.le_iff_toNat_le]
      exact hc
    rw [String.utf8EncodeChar_eq_singleton hsize, List.head?_cons, Option.some.injEq] at hb
    rwa [← isBlankByte_val hsize, hb]
  · unfold String.utf8EncodeChar at hb
    dsimp only at hb
    rw [if_neg hc] at hb
    split_ifs at hb <;>
    · rw [List.head?_cons, Option.some.injEq] at hb
      rw [← hb, UInt8.toNat_ofNat'] at hsmall
      omega

/-- Beginnings of a text with the same number of bytes are the same. -/
theorem append_inj_of_utf8ByteSize {before before' after after' : String}
    (h : before ++ after = before' ++ after')
    (hsize : before.utf8ByteSize = before'.utf8ByteSize) : before = before' ∧ after = after' := by
  have hbytes := congrArg String.toByteArray h
  rw [String.toByteArray_append, String.toByteArray_append] at hbytes
  obtain rfl := String.toByteArray_inj.1 (ByteArray.append_inj_left hbytes hsize)
  exact ⟨rfl, (String.append_right_inj before).1 h⟩

/-! ### Spans -/

/-- A token of a text, the word that spells it, and the byte offset of the word. -/
structure Span where
  token : Token
  word : List Char
  start : Nat

namespace Span

/-- The byte offset of the end of the word. -/
def stop (s : Span) : Nat :=
  s.start + (String.ofList s.word).utf8ByteSize

/-- What is reported of a span. -/
def lexeme (s : Span) : Lexeme :=
  ⟨s.token, s.start⟩

/-- The word of a span is found at its place in a text, between whole characters, and no longer word
of a token starts there. -/
def StandsIn (s : Span) (text : String) : Prop :=
  ∃ before after : String, text = before ++ (String.ofList s.word ++ after) ∧
    s.start = before.utf8ByteSize ∧ s.token.Longest s.word (s.word ++ after.toList)

end Span

theorem Span.StandsIn.start_lt_stop {s : Span} {text : String} (h : s.StandsIn text) :
    s.start < s.stop := by
  obtain ⟨_, _, _, _, hlongest⟩ := h
  have hne := List.length_pos_iff.2 hlongest.spelled.ne_nil
  rw [Span.stop, hlongest.spelled.narrow.utf8ByteSize]
  omega

/-- Spans cover the bytes of a text up to a limit, except the blanks, one after the other. -/
structure Tiles (spans : List Span) (text : String) (limit : Nat) : Prop where
  stands : ∀ s ∈ spans, s.StandsIn text
  stop_le : ∀ s ∈ spans, s.stop ≤ limit
  ordered : spans.Pairwise fun s s' ↦ s.stop ≤ s'.start
  covers (k : Nat) (b : UInt8) : k < limit → (bytes text)[k]? = some b →
    ((∃ s ∈ spans, s.start ≤ k ∧ k < s.stop) ↔ isBlankByte b = false)

/-- A text starts with a blank or with a word of a token. -/
def Starts (cs : List Char) : Prop :=
  (∃ c, cs.head? = some c ∧ c ∈ [' ', '\t', '\n', '\x0c', '\r']) ∨
    ∃ t word, Token.SpelledBy t word ∧ word <+: cs

theorem isBlank_iff {c : Char} : isBlank c ↔ c ∈ [' ', '\t', '\n', '\x0c', '\r'] := by
  simp [isBlank, or_assoc]

theorem Stuck.not_starts {cs : List Char} (h : Stuck cs) : ¬ Starts cs := by
  rintro (⟨c, hc, hblank⟩ | ⟨t, word, hspelled, hfront⟩)
  · have hstuck := h.1
    rw [hc, Option.all_some, isBlank_iff.2 hblank] at hstuck
    cases hstuck
  · exact Token.read?_eq_none_iff.1 h.2 t word hspelled hfront

/-- In a text that is tiled up to a limit, a blank or a token starts at every character before the
limit that is not inside a word. -/
theorem Tiles.starts {spans : List Span} {text before after : String} {limit : Nat}
    (h : Tiles spans text limit) (hlimit : limit ≤ text.utf8ByteSize)
    (htext : text = before ++ after) (hlt : before.utf8ByteSize < limit) :
    Starts after.toList ∨
      ∃ s ∈ spans, s.start < before.utf8ByteSize ∧ before.utf8ByteSize < s.stop := by
  cases hafter : after.toList with
  | nil =>
    rw [String.toList_eq_nil_iff] at hafter
    rw [htext, hafter, String.append_empty] at hlimit
    omega
  | cons c cs =>
    obtain ⟨b, hb⟩ : ∃ b, (String.utf8EncodeChar c).head? = some b :=
      Option.ne_none_iff_exists'.1 (by simp [String.utf8EncodeChar_ne_nil])
    have hget : (bytes text)[before.utf8ByteSize]? = some b := by
      have hlength : before.utf8ByteSize = (bytes before).length := rfl
      rw [bytes_eq, htext, String.toList_append, List.flatMap_append, ← bytes_eq, hlength,
        List.getElem?_append_right le_rfl, Nat.sub_self, hafter, List.flatMap_cons,
        ← List.head?_eq_getElem?, List.head?_append, hb]
      rfl
    cases hblank : isBlankByte b with
    | true => exact .inl (.inl ⟨c, rfl, isBlank_iff.1 (isBlank_of_head?_utf8EncodeChar hb hblank)⟩)
    | false =>
      obtain ⟨s, hs, hle, hstop⟩ := (h.covers _ b hlt hget).2 hblank
      rcases hle.eq_or_lt with hstart | hstart
      · obtain ⟨before', after', htext', hstart', hlongest⟩ := h.stands s hs
        rw [htext] at htext'
        obtain ⟨-, rfl⟩ := append_inj_of_utf8ByteSize htext' (hstart.symm.trans hstart')
        refine .inl (.inr ⟨s.token, s.word, hlongest.spelled, ?_⟩)
        rw [← hafter, String.toList_append, String.toList_ofList]
        exact List.prefix_append _ _
      · exact .inr ⟨s, hs, hstart, hstop⟩

/-- The spans of a row of chunks that starts at an offset. -/
def chunkSpans (offset : Nat) : List Chunk → List Span
  | [] => []
  | chunk :: chunks =>
    ⟨chunk.token, chunk.word, offset⟩ ::
      chunkSpans (offset + chunk.word.length + chunk.gap.length) chunks

theorem lexeme_chunkSpans (chunks : List Chunk) (offset : Nat) :
    (chunkSpans offset chunks).map Span.lexeme = chunkLexemes offset chunks := by
  induction chunks generalizing offset with
  | nil => rfl
  | cons chunk chunks ih =>
    rw [chunkSpans, List.map_cons, ih]
    rfl

section Chunks

variable {rest : List Char} {chunks : List Chunk}

theorem Chunked.narrow (h : Chunked rest chunks) : Narrow (chunkText chunks) := by
  induction h with
  | nil => exact fun c hc ↦ absurd hc List.not_mem_nil
  | cons hlongest hblank _ ih =>
    rw [chunkText_cons]
    exact (hlongest.spelled.narrow.append (narrow_of_isBlank hblank)).append ih

/-- The spans of a row of chunks lie in its text. -/
theorem Chunked.start_le (h : Chunked rest chunks) {offset : Nat} {s : Span}
    (hs : s ∈ chunkSpans offset chunks) :
    offset ≤ s.start ∧ s.stop ≤ offset + (chunkText chunks).length := by
  induction h generalizing offset with
  | nil => cases hs
  | @cons chunk chunks hlongest _ _ ih =>
    rw [length_chunkText_cons]
    rcases List.mem_cons.1 hs with rfl | hs
    · rw [Span.stop, hlongest.spelled.narrow.utf8ByteSize]
      dsimp only
      omega
    · have := ih hs
      omega

theorem Chunked.ordered (h : Chunked rest chunks) (offset : Nat) :
    (chunkSpans offset chunks).Pairwise fun s s' ↦ s.stop ≤ s'.start := by
  induction h generalizing offset with
  | nil => exact .nil
  | @cons chunk chunks hlongest _ hchunks ih =>
    refine .cons (fun s hs ↦ ?_) (ih _)
    have hstart := (hchunks.start_le hs).1
    rw [Span.stop, hlongest.spelled.narrow.utf8ByteSize]
    dsimp only
    omega

/-- The spans of a row of chunks cover its characters except the blanks. -/
theorem Chunked.covers (h : Chunked rest chunks) (offset : Nat) {k : Nat} {c : Char}
    (hc : (chunkText chunks)[k]? = some c) :
    (∃ s ∈ chunkSpans offset chunks, s.start ≤ offset + k ∧ offset + k < s.stop) ↔
      isBlank c = false := by
  induction h generalizing offset k with
  | nil => cases hc
  | @cons chunk chunks hlongest hblank hchunks ih =>
    have hstop : Span.stop ⟨chunk.token, chunk.word, offset⟩ = offset + chunk.word.length := by
      rw [Span.stop, hlongest.spelled.narrow.utf8ByteSize]
    have hlater : ∀ s ∈ chunkSpans (offset + chunk.word.length + chunk.gap.length) chunks,
        offset + chunk.word.length + chunk.gap.length ≤ s.start :=
      fun s hs ↦ (hchunks.start_le hs).1
    rw [chunkText_cons, List.append_assoc] at hc
    simp only [chunkSpans, List.mem_cons, exists_eq_or_imp, hstop]
    by_cases hword : k < chunk.word.length
    · rw [List.getElem?_append_left hword] at hc
      have hvisible := hlongest.spelled.isVisible c (List.mem_of_getElem? hc)
      refine iff_of_true (.inl ?_) (isBlank_of_isVisible hvisible)
      omega
    · rw [List.getElem?_append_right (Nat.le_of_not_lt hword)] at hc
      by_cases hgap : k - chunk.word.length < chunk.gap.length
      · rw [List.getElem?_append_left hgap] at hc
        have hc := List.all_eq_true.1 hblank c (List.mem_of_getElem? hc)
        refine iff_of_false ?_ (by rw [hc]; decide)
        rintro (hs | ⟨s, hs, hle, -⟩)
        · omega
        · have := hlater s hs
          omega
      · rw [List.getElem?_append_right (Nat.le_of_not_lt hgap)] at hc
        have hlater := ih (offset + chunk.word.length + chunk.gap.length) hc
        have hk : offset + chunk.word.length + chunk.gap.length +
            (k - chunk.word.length - chunk.gap.length) = offset + k := by omega
        rw [hk] at hlater
        rw [← hlater]
        refine or_iff_right ?_
        omega

/-- The words of a row of chunks stand in its text. -/
theorem Chunked.standsIn (h : Chunked rest chunks) {before : List Char} {text : String}
    (hbefore : Narrow before) (htext : text.toList = before ++ (chunkText chunks ++ rest)) :
    ∀ s ∈ chunkSpans before.length chunks, s.StandsIn text := by
  induction h generalizing before with
  | nil => exact fun s hs ↦ absurd hs List.not_mem_nil
  | @cons chunk chunks hlongest hblank hchunks ih =>
    rw [chunkText_cons] at htext
    refine List.forall_mem_cons.2 ⟨?_, ?_⟩
    · refine ⟨String.ofList before, String.ofList (chunk.gap ++ (chunkText chunks ++ rest)), ?_,
        hbefore.utf8ByteSize.symm, ?_⟩
      · rw [← String.toList_inj, htext]
        simp
      · rw [String.toList_ofList]
        exact hlongest
    · have hnarrow : Narrow (before ++ (chunk.word ++ chunk.gap)) :=
        hbefore.append (hlongest.spelled.narrow.append (narrow_of_isBlank hblank))
      have hlength : (before ++ (chunk.word ++ chunk.gap)).length =
          before.length + chunk.word.length + chunk.gap.length := by
        rw [List.length_append, List.length_append, Nat.add_assoc]
      rw [← hlength]
      refine ih hnarrow ?_
      rw [htext]
      simp only [List.append_assoc]

/-- A row of chunks after blanks tiles a text up to its end. -/
theorem Chunked.tiles (h : Chunked rest chunks) {gap : List Char} {text : String}
    (hgap : gap.all isBlank) (htext : text.toList = gap ++ (chunkText chunks ++ rest)) :
    Tiles (chunkSpans gap.length chunks) text (gap.length + (chunkText chunks).length) where
  stands := h.standsIn (narrow_of_isBlank hgap) htext
  stop_le _ hs := (h.start_le hs).2
  ordered := h.ordered _
  covers := by
    intro k b hk hb
    have hnarrow : Narrow (gap ++ chunkText chunks) := (narrow_of_isBlank hgap).append h.narrow
    rw [← List.append_assoc] at htext
    rw [← List.length_append] at hk
    rw [getElem?_bytes htext hnarrow hk] at hb
    obtain rfl := Option.some.inj hb
    have hc := List.getElem?_eq_getElem hk
    rw [isBlankByte_val (hnarrow _ (List.getElem_mem hk))]
    generalize (gap ++ chunkText chunks)[k] = c at hc ⊢
    by_cases hlead : k < gap.length
    · rw [List.getElem?_append_left hlead] at hc
      have hblank := List.all_eq_true.1 hgap c (List.mem_of_getElem? hc)
      refine iff_of_false ?_ (by rw [hblank]; decide)
      rintro ⟨s, hs, hle, -⟩
      have := (h.start_le hs).1
      omega
    · rw [List.getElem?_append_right (Nat.le_of_not_lt hlead)] at hc
      have hcovers := h.covers gap.length hc
      rwa [Nat.add_sub_cancel' (Nat.le_of_not_lt hlead)] at hcovers

end Chunks

/-! ### Places -/

/-- A cursor is before the `n`th of some tokens, or at the end of the text. -/
structure Cursor.At (ls : List Lexeme) (stop n : Nat) (c : Cursor) : Prop where
  ahead_eq : c.ahead = ls.drop n
  stop_eq : c.stop = stop

namespace Cursor.At

variable {ls : List Lexeme} {stop n : Nat} {c : Cursor}

theorem peek?_eq (h : c.At ls stop n) : c.peek? = ls[n]?.map (·.token) := by
  rw [Cursor.peek?, h.ahead_eq, List.head?_drop]

theorem offset_eq (h : c.At ls stop n) : c.offset = (ls[n]?.map (·.offset)).getD stop := by
  rw [← List.head?_drop, ← h.ahead_eq, ← h.stop_eq, Cursor.offset]
  cases c.ahead <;> rfl

theorem advance (h : c.At ls stop n) : c.advance.At ls stop (n + 1) where
  ahead_eq := by rw [Cursor.advance, h.ahead_eq, List.tail_drop]
  stop_eq := h.stop_eq

theorem start (text : String) (ls : List Lexeme) :
    (Expr.start text ls).At ls text.utf8ByteSize 0 :=
  ⟨rfl, rfl⟩

theorem iterate (text : String) (ls : List Lexeme) (n : Nat) :
    (Cursor.advance^[n] (Expr.start text ls)).At ls text.utf8ByteSize n := by
  induction n with
  | zero => exact .start text ls
  | succ n ih =>
    rw [Function.iterate_succ_apply']
    exact ih.advance

end Cursor.At

/-! ### Tilings -/

section Texts

variable {text : String}

/-- A text of tokens is tiled by their spans up to its end. -/
theorem exists_tiles_of_ok {ls : List Lexeme} (h : lexemes 0 text.toList = .ok ls) :
    ∃ spans, ls = spans.map Span.lexeme ∧ Tiles spans text text.utf8ByteSize := by
  obtain ⟨gap, chunks, hlaid⟩ := exists_laid h
  have htext : text.toList = gap ++ (chunkText chunks ++ []) := by
    rw [List.append_nil, hlaid.toList_eq]
  have hlimit : text.utf8ByteSize = gap.length + (chunkText chunks).length := by
    have hnarrow := (narrow_of_isBlank hlaid.blank).append hlaid.chunked.narrow
    rw [← List.length_append, ← hnarrow.utf8ByteSize, ← hlaid.toList_eq, String.ofList_toList]
  rw [hlimit, Except.ok.inj (h.symm.trans hlaid.lexemes_eq), ← lexeme_chunkSpans]
  exact ⟨_, rfl, hlaid.chunked.tiles hlaid.blank htext⟩

/-- A text that is refused is tiled up to a character where neither a blank nor a token starts. -/
theorem exists_tiles_of_error {e : ParseError} (h : lexemes 0 text.toList = .error e) :
    ∃ spans before c after, text = before ++ String.ofList (c :: after) ∧
      e = ⟨before.utf8ByteSize, .unexpectedCharacter c⟩ ∧
      Tiles spans text before.utf8ByteSize ∧ ¬ Starts (c :: after) := by
  obtain ⟨gap, chunks, rest, htext, hgap, hchunks, hrest, hlexemes⟩ :=
    exists_chunks_of_lexemes 0 text.toList
  have htiles := hchunks.tiles hgap htext
  rw [h, Nat.zero_add] at hlexemes
  cases rest with
  | nil => cases hlexemes
  | cons c rest =>
    have hnarrow := (narrow_of_isBlank hgap).append hchunks.narrow
    rw [← List.length_append, ← hnarrow.utf8ByteSize] at htiles hlexemes
    refine ⟨_, String.ofList (gap ++ chunkText chunks), c, rest, ?_, Except.error.inj hlexemes,
      htiles, hrest.not_starts⟩
    rw [← String.toList_inj, htext]
    simp

end Texts

/-- A text of tokens is tiled by their spans up to its end, and the places of a parse are the tokens
and then the end of the text. Another text is tiled up to the character that is refused, which is
the first one outside the words where neither a blank nor a token starts. All that is read as a
number is a decimal numeral. -/
theorem lexemes_tile (text : String) :
    (match lexemes 0 text.toList with
      | .ok ls =>
        ∃ spans, ls = spans.map Span.lexeme ∧ Tiles spans text text.utf8ByteSize ∧
          ∀ n, let place := Cursor.advance^[n] (Expr.start text ls)
            place.peek? = ls[n]?.map (·.token) ∧
              place.offset = (ls[n]?.map (·.offset)).getD text.utf8ByteSize
      | .error e =>
        ∃ spans before c after, text = before ++ String.ofList (c :: after) ∧
          e = ⟨before.utf8ByteSize, .unexpectedCharacter c⟩ ∧
          Tiles spans text before.utf8ByteSize ∧ ¬ Starts (c :: after) ∧
          ∀ before' after', text = before' ++ after' →
            before'.utf8ByteSize < before.utf8ByteSize → Starts after'.toList ∨
              ∃ s ∈ spans, s.start < before'.utf8ByteSize ∧ before'.utf8ByteSize < s.stop) ∧
      ∀ cs, Token.startsNumber cs → (NumberWord.ofPrefix cs).WellFormed ∧
        (NumberWord.ofPrefix cs).word <+: cs := by
  refine ⟨?_, fun cs hcs ↦
    ⟨NumberWord.wellFormed_ofPrefix hcs, NumberWord.word_ofPrefix_isPrefix cs⟩⟩
  cases h : lexemes 0 text.toList with
  | ok ls =>
    obtain ⟨spans, hls, htiles⟩ := exists_tiles_of_ok h
    refine ⟨spans, hls, htiles, fun n ↦ ?_⟩
    have hplace := Cursor.At.iterate text ls n
    exact ⟨hplace.peek?_eq, hplace.offset_eq⟩
  | error e =>
    obtain ⟨spans, before, c, after, htext, herror, htiles, hstuck⟩ := exists_tiles_of_error h
    have hlimit : before.utf8ByteSize ≤ text.utf8ByteSize := by
      rw [htext, String.utf8ByteSize_append]
      exact Nat.le_add_right _ _
    exact ⟨spans, before, c, after, htext, herror, htiles, hstuck,
      fun before' after' htext' hlt ↦ htiles.starts hlimit htext' hlt⟩

/-- A letter with an accent is refused at its first byte, after a number that ends in a point. -/
theorem lexemes_tile_accent :
    lexemes 0 "1. é".toList = .error ⟨3, .unexpectedCharacter 'é'⟩ ∧
      ∃ spans, Tiles spans "1. é" 3 := by
  have hlexemes : lexemes 0 "1. é".toList = .error ⟨3, .unexpectedCharacter 'é'⟩ := by
    have hread : Token.read? "1. é".toList =
        some ⟨.number (NumberWord.ofPrefix "1. é".toList).value, ['1', '.'], [' ', 'é']⟩ := rfl
    rw [lexemes_of_read? hread, lexemes_blank rfl, lexemes_stuck ⟨rfl, rfl⟩]
    rfl
  have htile := (lexemes_tile "1. é").1
  rw [hlexemes] at htile
  obtain ⟨spans, before, c, after, -, herror, htiles, -⟩ := htile
  have hoffset : 3 = before.utf8ByteSize := congrArg ParseError.offset herror
  exact ⟨hlexemes, spans, hoffset ▸ htiles⟩

end Waypoints
