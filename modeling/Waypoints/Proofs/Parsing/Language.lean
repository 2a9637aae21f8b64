import Waypoints.Proofs.Parsing.Completeness
import Waypoints.Proofs.Parsing.Spelling
/-!
# The language of expressions

`Expr.parse` accepts a text if and only if its tokens are an expression of the grammar whose levels
fit under the limit, and returns the tree of that expression. An expression with more levels is
refused for that reason and no other.
-/

set_option autoImplicit false
set_option relaxedAutoImplicit false

namespace Waypoints

namespace Expr

open Waypoints.Parser
open StateT (Ensures ensures_bind)

theorem tokens_start (text : String) (ls : List Lexeme) :
    (start text ls).tokens = ls.map (·.token) := rfl

theorem depth_start_le (text : String) (ls : List Lexeme) :
    (start text ls).depth ≤ maxNesting :=
  Nat.zero_le _

section Outcome

variable {text : String} {ls : List Lexeme} {e : Expr} {n : Nat}

/-- What holds of the parser of expressions at the front of a text, the end of which has to follow,
holds of the parse. -/
theorem parse_ensures (ok : Expr → Prop) (bad : ParseError → Prop)
    (hls : lexemes 0 text.toList = .ok ls)
    (h : (Parser.expr (parseSteps ls)).Ensures (start text ls)
      (fun e c ↦ expectEnd.Ensures c (fun _ _ ↦ ok e) bad) bad) :
    match parse text with
    | .ok e => ok e
    | .error fault => bad fault := by
  have hwhole : (do
      let e ← Parser.expr (parseSteps ls)
      expectEnd
      return e : Parser Expr).Ensures (start text ls) (fun e _ ↦ ok e) bad := by
    rw [ensures_bind]
    refine h.mono (fun e c hend ↦ ?_) fun fault hfault ↦ hfault
    rw [ensures_bind]
    exact hend
  have hparse : parse text = parseTokens text ls := by
    rw [parse, hls]
    rfl
  rw [hparse, parseTokens]
  unfold Ensures at hwhole
  change match Except.map Prod.fst _ with
    | .ok e => ok e
    | .error fault => bad fault
  split at hwhole
  · next heq =>
    rw [heq]
    exact hwhole
  · next heq =>
    rw [heq]
    exact hwhole

/-- What is accepted is made of tokens. -/
theorem lexemes_of_parse (h : parse text = .ok e) : ∃ ls, lexemes 0 text.toList = .ok ls := by
  cases hls : lexemes 0 text.toList with
  | ok ls => exact ⟨ls, rfl⟩
  | error fault =>
    rw [parse, hls] at h
    cases h

/-- What is accepted is an expression of the grammar. -/
theorem phrase_of_parse (hls : lexemes 0 text.toList = .ok ls) (h : parse text = .ok e) :
    ∃ n, n ≤ maxNesting ∧ Phrase .expr (ls.map (·.token)) e n := by
  have hensures := parse_ensures (fun e ↦ ∃ n, n ≤ maxNesting ∧ Phrase .expr (ls.map (·.token)) e n)
    (fun _ ↦ True) hls ?_
  · rw [h] at hensures
    exact hensures
  refine (soundAt _).expr.ensures (depth_start_le text ls) fun e c ts n hpass hphrase ↦ ?_
  rw [ensures_expectEnd]
  split
  · next hend =>
    rw [c.peek?_eq, List.head?_eq_none_iff] at hend
    have htokens := hpass.tokens_eq
    rw [tokens_start, hend, List.append_nil] at htokens
    rw [htokens]
    exact ⟨n, (Nat.zero_add n).ge.trans hpass.levels_le, hphrase⟩
  · trivial

/-- An expression of the grammar is accepted with its tree, or refused because its levels are too
many. -/
theorem parse_of_phrase (hls : lexemes 0 text.toList = .ok ls)
    (h : Phrase .expr (ls.map (·.token)) e n) :
    parse text = .ok e ∧ n ≤ maxNesting ∨
      (∃ offset, parse text = .error ⟨offset, .tooDeep⟩) ∧ maxNesting < n := by
  have hensures := parse_ensures (fun e' ↦ e' = e ∧ n ≤ maxNesting)
    (fun fault ↦ fault.fault = .tooDeep ∧ maxNesting < n) hls ?_
  · revert hensures
    rcases parse text with ⟨offset, fault⟩ | e'
    · rintro ⟨rfl, hlevels⟩
      exact .inr ⟨⟨offset, rfl⟩, hlevels⟩
    · rintro ⟨rfl, hlevels⟩
      exact .inl ⟨rfl, hlevels⟩
  have hsteps : 20 * (ls.map (·.token)).length + 13 ≤ parseSteps ls := by
    rw [List.length_map, parseSteps]
    omega
  have hreads : (Parser.expr (parseSteps ls)).Reads (ls.map (·.token)) e n [] :=
    complete h (parseSteps ls) [] hsteps (show 7 < 9 by decide)
  refine (hreads _ (depth_start_le text ls) (List.append_nil _).symm).mono ?_ ?_
  · rintro e' c ⟨rfl, hpass⟩
    have hend : c.peek? = none := by
      rw [c.peek?_eq, hpass.tokens_of (List.append_nil _).symm]
      rfl
    rw [ensures_expectEnd, hend]
    exact ⟨rfl, (Nat.zero_add n).ge.trans hpass.levels_le⟩
  · rintro fault ⟨hfault, hlevels⟩
    exact ⟨hfault, hlevels.trans_eq (Nat.zero_add n)⟩

/-- A text is accepted with a tree if and only if its tokens are an expression with this tree and
with at most 64 levels; if they are one with more levels, then the text is refused because of them.

Assumes: the text is made of tokens. -/
theorem parse_iff_phrase (hls : lexemes 0 text.toList = .ok ls) :
    (∀ e, parse text = .ok e ↔ ∃ n, n ≤ 64 ∧ Phrase .expr (ls.map (·.token)) e n) ∧
      ∀ e n, Phrase .expr (ls.map (·.token)) e n → 64 < n →
        ∃ offset, parse text = .error ⟨offset, .tooDeep⟩ := by
  constructor
  · intro e
    constructor
    · exact phrase_of_parse hls
    · rintro ⟨n, hlevels, h⟩
      rcases parse_of_phrase hls h with ⟨hparse, -⟩ | ⟨-, hdeep⟩
      · exact hparse
      · exact absurd hlevels (Nat.not_le_of_lt hdeep)
  · intro e n h hlevels
    rcases parse_of_phrase hls h with ⟨-, hle⟩ | ⟨hparse, -⟩
    · exact absurd hle (Nat.not_le_of_lt hlevels)
    · exact hparse

end Outcome

/-- The filter of a comprehension is not taken for a conditional. -/
theorem parse_filtered_comprehension :
    parse "[ x for a in [ ] if a ] " =
      .ok (.comprehension (.name "x") [.mk "a" (.list []) [.name "a"]]) := by
  have hwords : ∀ t ∈ [Token.mark .bracketOpen, .name "x", .mark .kwFor, .name "a", .mark .kwIn,
      .mark .bracketOpen, .mark .bracketClose, .mark .kwIf, .name "a", .mark .bracketClose],
      t.IsWord := by decide
  have hx : Phrase .atom [.name "x"] (.name "x") 0 := .name (by decide)
  have ha : Phrase .atom [.name "a"] (.name "a") 0 := .name (by decide)
  have hclause := Phrase.clause (show "a" ∉ _ by decide)
    Phrase.empty.disjunction_of_atom (.filtersCons ha.disjunction_of_atom .filtersNil)
  have hphrase := Phrase.comprehension hx.expr_of_atom (.clausesCons hclause .clausesNil)
  obtain ⟨ls, hls, htokens⟩ := lexemes_spell hwords 0
  have hlexemes : lexemes 0 "[ x for a in [ ] if a ] ".toList = .ok ls := hls
  refine ((parse_iff_phrase hlexemes).1 _).2 ⟨2, by decide, ?_⟩
  rw [htokens]
  exact hphrase.expr_of_atom

/-! ### Spelled expressions -/

/-- An expression of marks and names is accepted in the spelling of its tokens.

Assumes: there is no number among the tokens, and the levels fit under the limit. -/
theorem parse_spell {ts : List Token} {e : Expr} {n : Nat} (hts : ∀ t ∈ ts, t.IsWord)
    (h : Phrase .expr ts e n) (hlevels : n ≤ maxNesting) :
    parse (String.ofList (spell ts)) = .ok e := by
  obtain ⟨ls, hls, rfl⟩ := lexemes_spell hts 0
  rw [← String.toList_ofList (l := spell _)] at hls
  rcases parse_of_phrase hls h with ⟨hparse, -⟩ | ⟨-, hdeep⟩
  · exact hparse
  · exact absurd hlevels (Nat.not_le_of_lt hdeep)

end Expr

end Waypoints
