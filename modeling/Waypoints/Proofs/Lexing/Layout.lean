import Waypoints.Proofs.Lexing.Chunks
/-!
# The blanks between tokens

`Respaced` relates two rows of chunks with the same words: the blanks between them may be any others
as long as none are removed altogether. The words of the new row are still the longest ones where
they stand (`Chunked.respaced`), because a word has no blank in it, so what it could have run into
stood next to it before.
-/

set_option autoImplicit false
set_option relaxedAutoImplicit false

namespace Waypoints

/-- The same words with other blanks after them. Between two words some blank is left where there
was one. -/
inductive Respaced : List Chunk → List Chunk → Prop
  | nil : Respaced [] []
  | cons {chunk : Chunk} {gap : List Char} {chunks chunks' : List Chunk} (blank : gap.all isBlank)
    (kept : chunk.gap = [] ∨ gap ≠ [] ∨ chunks = []) (rest : Respaced chunks chunks') :
    Respaced (chunk :: chunks) ({ chunk with gap } :: chunks')

theorem Respaced.tokens {chunks chunks' : List Chunk} (h : Respaced chunks chunks') :
    chunks'.map (·.token) = chunks.map (·.token) := by
  induction h with
  | nil => rfl
  | cons _ _ _ ih => rw [List.map_cons, List.map_cons, ih]

theorem map_token_chunkLexemes (offset : Nat) (chunks : List Chunk) :
    (chunkLexemes offset chunks).map (·.token) = chunks.map (·.token) := by
  induction chunks generalizing offset with
  | nil => rfl
  | cons chunk chunks ih => rw [chunkLexemes, List.map_cons, List.map_cons, ih]

section Prefixes

variable {v word gap cs : List Char}

/-- Characters without a blank do not reach over a gap. -/
theorem isPrefix_append_gap (hv : ∀ c ∈ v, isVisible c) (hgap : gap.all isBlank)
    (h : v <+: word ++ (gap ++ cs)) :
    v <+: word ∨ gap = [] ∧ ∃ v', v = word ++ v' ∧ v' ≠ [] ∧ v' <+: cs := by
  rcases List.prefix_or_prefix_of_prefix h (List.prefix_append word _) with hword | ⟨v', rfl⟩
  · exact .inl hword
  rw [List.prefix_append_right_inj] at h
  match v', gap with
  | [], _ => exact .inl (by rw [List.append_nil])
  | c :: v', [] => exact .inr ⟨rfl, c :: v', rfl, List.cons_ne_nil _ _, h⟩
  | c :: v', g :: gap =>
    obtain rfl : c = g := (List.cons_prefix_cons.1 h).1
    have hvisible := isBlank_of_isVisible (hv c (by simp))
    rw [List.all_cons, Bool.and_eq_true, hvisible] at hgap
    cases hgap.1

/-- Characters without a blank at the front of a row of words stand there whatever blanks were
between the words. -/
theorem Respaced.isPrefix {chunks chunks' : List Chunk} (h : Respaced chunks chunks')
    (hv : ∀ c ∈ v, isVisible c) (hfront : v <+: chunkText chunks') : v <+: chunkText chunks := by
  induction h generalizing v with
  | nil => exact hfront
  | @cons chunk gap chunks chunks' hblank hkept hrest ih =>
    rw [chunkText_cons, List.append_assoc] at hfront ⊢
    rcases isPrefix_append_gap hv hblank hfront with hword | ⟨rfl, v', rfl, hne, hv'⟩
    · exact hword.trans (List.prefix_append _ _)
    · rw [List.prefix_append_right_inj]
      have hlater := ih (List.forall_mem_append.1 hv).2 hv'
      rcases hkept with hnil | hne' | rfl
      · rwa [hnil, List.nil_append]
      · exact absurd rfl hne'
      · -- after the last word there is nothing to run into
        exact absurd (List.prefix_nil.1 hlater) hne

end Prefixes

/-- The words of a row of chunks are the longest ones with other blanks between them, too. -/
theorem Chunked.respaced {chunks chunks' : List Chunk} (h : Chunked [] chunks)
    (hrespaced : Respaced chunks chunks') : Chunked [] chunks' := by
  induction hrespaced with
  | nil => exact .nil
  | @cons chunk gap chunks chunks' hblank hkept hrest ih =>
    cases h with
    | cons hlongest _ hchunks =>
      refine .cons ⟨hlongest.spelled, List.prefix_append _ _, fun t word hspelled hfront ↦ ?_⟩
        hblank (ih hchunks)
      refine hlongest.length_le t word hspelled ?_
      have hrow : word <+: chunkText ({ chunk with gap } :: chunks') := by
        rwa [chunkText_cons, List.append_assoc, ← List.append_nil (chunkText chunks')]
      have hword := (Respaced.cons hblank hkept hrest).isPrefix hspelled.isVisible hrow
      rwa [chunkText_cons, List.append_assoc, ← List.append_nil (chunkText chunks)] at hword

end Waypoints
