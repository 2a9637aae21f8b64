import Waypoints.Proofs.Lexing.Tiling
import Waypoints.Proofs.Parsing.Language
import Waypoints.Proofs.Parsing.Steps
/-!
# Where a text is refused

`ParseFault.Concerns` says which token a fault is about. An error is reported at that token
(`ParseError.Blames`), except that the variable of a clause is reported late, at the place after it.
`Expr.blame_exact` shows this for all texts.
-/

set_option autoImplicit false
set_option relaxedAutoImplicit false

namespace Waypoints

/-- The byte offset of the `n`th of some tokens, or of the end of the text. -/
def offsetAt (ls : List Lexeme) (stop n : Nat) : Nat :=
  (ls[n]?.map (·.offset)).getD stop

theorem offsetAt_of_lt {spans : List Span} {stop n : Nat} (h : n < spans.length) :
    offsetAt (spans.map Span.lexeme) stop n = spans[n].start := by
  simp [offsetAt, h, Span.lexeme]

theorem offsetAt_of_le {spans : List Span} {stop n : Nat} (h : spans.length ≤ n) :
    offsetAt (spans.map Span.lexeme) stop n = stop := by
  simp [offsetAt, h]

/-- The `n`th of some tokens, `none` after the last. -/
def tokenAt? (ls : List Lexeme) (n : Nat) : Option Token :=
  ls[n]?.map (·.token)

namespace ParseFault

/-- The token of a fault is refused as the variable of a clause. -/
def OfVariable : ParseFault → Prop
  | expectedVariable (some _) | reservedName _ => True
  | _ => False

instance : (fault : ParseFault) → Decidable fault.OfVariable
  | expectedVariable (some _) | reservedName _ => isTrue trivial
  | expectedVariable none | unexpectedCharacter _ | unexpected _ | expected _ _ | notCallable _
  | rangeArity _ | tooDeep | stalled => isFalse id

/-- A fault concerns the `n`th of some tokens: it is the token that was found; the token after `for`
in the place of a variable; or the parenthesis after the name that is not callable. -/
def Concerns (ls : List Lexeme) (n : Nat) : ParseFault → Prop
  | unexpected found => tokenAt? ls n = found
  | expected _ found => tokenAt? ls n = found
  | expectedVariable found =>
    tokenAt? ls n = found ∧ ∃ m, n = m + 1 ∧ tokenAt? ls m = some (.mark .kwFor)
  | reservedName word =>
    tokenAt? ls n = some (.name word) ∧ ∃ m, n = m + 1 ∧ tokenAt? ls m = some (.mark .kwFor)
  | notCallable word =>
    tokenAt? ls n = some (.mark .parenOpen) ∧ ∃ m, n = m + 1 ∧ tokenAt? ls m = some (.name word)
  | _ => True

/-- The variable of a clause is a token. -/
theorem Concerns.lt_length {ls : List Lexeme} {n : Nat} {fault : ParseFault}
    (h : fault.Concerns ls n) (hvariable : fault.OfVariable) : n < ls.length := by
  have hsome {t : Token} (ht : tokenAt? ls n = some t) : n < ls.length := by
    obtain ⟨l, hl, -⟩ := Option.map_eq_some_iff.1 ht
    exact (List.getElem?_eq_some_iff.1 hl).1
  match fault with
  | expectedVariable (some t) => exact hsome h.1
  | reservedName word => exact hsome h.1

end ParseFault

/-- An error concerns the `n`th of some tokens, and is reported there or, if it concerns the
variable of a clause, at the place after it. -/
structure ParseError.Blames (e : ParseError) (ls : List Lexeme) (stop n : Nat) : Prop where
  concerns : e.fault.Concerns ls n
  offset_eq : e.offset = offsetAt ls stop (if e.fault.OfVariable then n + 1 else n)

namespace Parser

open StateT (ensures_pure ensures_bind ensures_ite)

variable {ls : List Lexeme} {stop : Nat} {α β : Type}

/-- From every place of a text, a parser gets to another one or blames a token. -/
def Blaming (ls : List Lexeme) (stop : Nat) {α : Type} (p : Parser α) : Prop :=
  ∀ n c, c.At ls stop n →
    p.Ensures c (fun _ c' ↦ ∃ m, c'.At ls stop m) fun e ↦ ∃ m, e.Blames ls stop m

theorem blaming_pure (a : α) : Blaming ls stop (pure a : Parser α) :=
  fun n _ hc ↦ ⟨n, hc⟩

theorem Blaming.bind {p : Parser α} {f : α → Parser β} (hp : Blaming ls stop p)
    (hf : ∀ a, Blaming ls stop (f a)) : Blaming ls stop (p >>= f) := by
  intro n c hc
  rw [ensures_bind]
  refine (hp n c hc).mono ?_ fun _ h ↦ h
  rintro a c' ⟨m, hc'⟩
  exact hf a m c' hc'

/-- A refusal where a fault of this kind is reported. -/
theorem ensures_refuse {fault : ParseFault} {n : Nat} {c : Cursor} {ok : α → Cursor → Prop}
    (hconcerns : fault.Concerns ls n) (hc : c.At ls stop (if fault.OfVariable then n + 1 else n)) :
    (refuse fault : Parser α).Ensures c ok fun e ↦ ∃ m, e.Blames ls stop m :=
  ⟨n, hconcerns, hc.offset_eq⟩

theorem blaming_take? (kind : Option Token → Option β) : Blaming ls stop (take? kind) := by
  intro n c hc
  rw [take?, ensures_bind, ensures_peek?]
  cases kind c.peek? with
  | none => exact ⟨n, hc⟩
  | some b => exact ⟨n + 1, hc.advance⟩

theorem blaming_eat (m : Mark) : Blaming ls stop (eat m) := by
  intro n c hc
  rw [ensures_eat]
  split
  · exact ⟨n + 1, hc.advance⟩
  · exact ⟨n, hc⟩

theorem blaming_expect (m : Mark) : Blaming ls stop (expect m) := by
  intro n c hc
  rw [ensures_expect]
  split
  · exact ⟨n + 1, hc.advance⟩
  · exact ⟨n, hc.peek?_eq.symm, hc.offset_eq⟩

theorem blaming_expectEnd : Blaming ls stop expectEnd := by
  intro n c hc
  rw [ensures_expectEnd]
  split
  · exact ⟨n, hc⟩
  · next hpeek => exact ⟨n, hc.peek?_eq.symm.trans hpeek, hc.offset_eq⟩

theorem blaming_refuseNext : Blaming ls stop (refuseNext : Parser α) :=
  fun n _ hc ↦ ⟨n, hc.peek?_eq.symm, hc.offset_eq⟩

theorem blaming_atomWord? : Blaming ls stop atomWord? := by
  intro n c hc
  rw [atomWord?, ensures_bind, take?, ensures_bind, ensures_peek?]
  rcases hpeek : c.peek? with _ | (value | word | mark)
  · exact ⟨n, hc⟩
  · exact ⟨n, hc⟩
  · have hname : tokenAt? ls n = some (.name word) := hc.peek?_eq.symm.trans hpeek
    dsimp only [Token.nameAt?]
    rw [ensures_bind, ensures_advance, ensures_pure, ensures_bind, ensures_peek?, ensures_ite]
    split
    · next hparen =>
      have hopen : tokenAt? ls (n + 1) = some (.mark .parenOpen) :=
        hc.advance.peek?_eq.symm.trans hparen.2
      exact ensures_refuse ⟨hopen, n, rfl, hname⟩ hc.advance
    · exact ⟨n + 1, hc.advance⟩
  · exact ⟨n, hc⟩

theorem ensures_loopVar {n : Nat} {c : Cursor} (hc : c.At ls stop (n + 1))
    (hfor : tokenAt? ls n = some (.mark .kwFor)) :
    loopVar.Ensures c (fun _ c' ↦ ∃ m, c'.At ls stop m) fun e ↦ ∃ m, e.Blames ls stop m := by
  have hconcerns {t : Token} (hpeek : c.peek? = some t) : tokenAt? ls (n + 1) = some t ∧
      ∃ m, n + 1 = m + 1 ∧ tokenAt? ls m = some (.mark .kwFor) :=
    ⟨hc.peek?_eq.symm.trans hpeek, n, rfl, hfor⟩
  rw [loopVar, ensures_bind, ensures_peek?, ensures_bind, ensures_advance]
  rcases hpeek : c.peek? with _ | (value | word | mark)
  · -- the end is reported where it is, since there is no place after it
    have hend : ls.length ≤ n + 1 := by
      rw [hc.peek?_eq, Option.map_eq_none_iff, List.getElem?_eq_none_iff] at hpeek
      exact hpeek
    have hplace : c.advance.At ls stop (n + 1) := ⟨by
      rw [hc.advance.ahead_eq, List.drop_eq_nil_of_le hend,
        List.drop_eq_nil_of_le (hend.trans (Nat.le_succ _))], hc.stop_eq⟩
    exact ensures_refuse ⟨hc.peek?_eq.symm.trans hpeek, n, rfl, hfor⟩ hplace
  · exact ensures_refuse (hconcerns hpeek) hc.advance
  · dsimp only
    rw [ensures_ite]
    split
    · exact ensures_refuse (hconcerns hpeek) hc.advance
    · exact ⟨n + 2, hc.advance⟩
  · exact ensures_refuse (hconcerns hpeek) hc.advance

theorem blaming_forVar? : Blaming ls stop forVar? := by
  intro n c hc
  rw [forVar?, ensures_bind, ensures_eat]
  split
  · next hfor =>
    rw [if_pos rfl, ensures_bind]
    exact ensures_loopVar hc.advance (hc.peek?_eq.symm.trans hfor)
  · exact ⟨n, hc⟩

theorem blaming_descend : Blaming ls stop descend := by
  intro n c hc
  rw [ensures_descend]
  split
  · exact ⟨n, trivial, hc.offset_eq⟩
  · exact ⟨n, hc.1, hc.2⟩

theorem Blaming.nested {p : Parser α} (hp : Blaming ls stop p) :
    Blaming ls stop (nested p) := by
  intro n c hc
  rw [ensures_nested]
  split
  · exact ⟨n, trivial, hc.offset_eq⟩
  · refine (hp n (c.withDepth (c.depth + 1)) ⟨hc.1, hc.2⟩).mono ?_ fun _ h ↦ h
    rintro a c' ⟨m, hc'⟩
    exact ⟨m, hc'.1, hc'.2⟩

theorem Blaming.closing {p : Parser α} (hp : Blaming ls stop p) :
    Blaming ls stop (closing p) := by
  intro n c hc
  rw [Parser.closing, ensures_bind, StateT.ensures_get, ensures_bind]
  refine (hp n c hc).mono ?_ fun _ h ↦ h
  rintro a c' ⟨m, hc'⟩
  exact ⟨m, hc'.1, hc'.2⟩

/-- The steps of the grammar refuse nothing but the token they blame. -/
theorem blaming_steps (ls : List Lexeme) (stop : Nat) : Steps (Blaming ls stop) where
  pure := blaming_pure
  bind := Blaming.bind
  take? := blaming_take?
  eat := blaming_eat
  expect := blaming_expect
  expectEnd := blaming_expectEnd
  refuseNext := blaming_refuseNext
  atomWord? := blaming_atomWord?
  forVar? := blaming_forVar?
  rangeArity _ n _ hc := ⟨n, trivial, hc.offset_eq⟩
  stalled n _ hc := ⟨n, trivial, hc.offset_eq⟩
  descend := blaming_descend
  nested := Blaming.nested
  closing := Blaming.closing

end Parser

namespace Expr

variable {text : String} {ls : List Lexeme} {e : ParseError}

/-- The error of a text that is refused blames a token or the end of the text. -/
theorem exists_blames (hls : lexemes 0 text.toList = .ok ls) (h : parse text = .error e) :
    ∃ n, e.Blames ls text.utf8ByteSize n := by
  let blames (e : ParseError) : Prop := ∃ n, e.Blames ls text.utf8ByteSize n
  have hensures := parse_ensures (fun _ ↦ True) blames hls ?_
  · rw [h] at hensures
    exact hensures
  have hsteps := Parser.blaming_steps ls text.utf8ByteSize
  refine ((hsteps.holds _).expr 0 _ (.start text ls)).mono ?_ fun _ h ↦ h
  rintro value c ⟨n, hc⟩
  exact (Parser.blaming_expectEnd n c hc).mono (fun _ _ _ ↦ trivial) fun _ h ↦ h

/-- Every token starts after the one before it, and the end of the text is after all of them. -/
theorem offsetAt_lt (hls : lexemes 0 text.toList = .ok ls) {n : Nat} (hn : n < ls.length) :
    offsetAt ls text.utf8ByteSize n < offsetAt ls text.utf8ByteSize (n + 1) := by
  obtain ⟨spans, rfl, htiles⟩ := exists_tiles_of_ok hls
  rw [List.length_map] at hn
  have hlt : spans[n].start < spans[n].stop := (htiles.stands _ (List.getElem_mem hn)).start_lt_stop
  rw [offsetAt_of_lt hn]
  by_cases hnext : n + 1 < spans.length
  · have hle := List.pairwise_iff_getElem.1 htiles.ordered n (n + 1) hn hnext (Nat.lt_succ_self n)
    rw [offsetAt_of_lt hnext]
    exact hlt.trans_le hle
  · have hle := htiles.stop_le _ (List.getElem_mem hn)
    rw [offsetAt_of_le (Nat.le_of_not_lt hnext)]
    exact hlt.trans_le hle

/-- A text is refused at the token that its error concerns: at the token that was found, or at the
parenthesis after a name that is not callable. Only the variable of a clause is not reported where
it stands; it is reported at the place after it.

Assumes: the text is made of tokens, and it is refused. -/
theorem blame_exact (hls : lexemes 0 text.toList = .ok ls) (h : parse text = .error e) :
    ∃ n, e.fault.Concerns ls n ∧
      (e.offset = offsetAt ls text.utf8ByteSize n ↔ ¬ e.fault.OfVariable) ∧
      (e.fault.OfVariable → e.offset = offsetAt ls text.utf8ByteSize (n + 1)) := by
  obtain ⟨n, hconcerns, hoffset⟩ := exists_blames hls h
  refine ⟨n, hconcerns, ?_, fun hvariable ↦ by rw [hoffset, if_pos hvariable]⟩
  by_cases hvariable : e.fault.OfVariable
  · rw [if_pos hvariable] at hoffset
    have hlt := offsetAt_lt hls (hconcerns.lt_length hvariable)
    refine iff_of_false (fun heq ↦ ?_) (not_not.2 hvariable)
    omega
  · rw [if_neg hvariable] at hoffset
    exact iff_of_true hoffset hvariable

/-- The parenthesis after a name is reported where it stands. -/
theorem blame_exact_callable :
    ∃ ls, lexemes 0 "w(x)".toList = .ok ls ∧ parse "w(x)" = .error ⟨1, .notCallable "w"⟩ ∧
      ∃ n, (ParseFault.notCallable "w").Concerns ls n ∧ 1 = offsetAt ls 4 n := by
  have hls : lexemes 0 "w(x)".toList = .ok [⟨.name "w", 0⟩, ⟨.mark .parenOpen, 1⟩,
      ⟨.name "x", 2⟩, ⟨.mark .parenClose, 3⟩] := by
    decide +kernel
  have hparse : parse "w(x)" = .error ⟨1, .notCallable "w"⟩ := by
    rw [parse, hls]
    rfl
  obtain ⟨n, hconcerns, hoffset, -⟩ := blame_exact hls hparse
  exact ⟨_, hls, hparse, n, hconcerns, hoffset.2 id⟩

/-- The variable of this clause stands at offset 7 and is reported at offset 9. -/
theorem not_reported_at_variable :
    ¬ ∀ text ls e, lexemes 0 text.toList = .ok ls → parse text = .error e →
      ∃ n, e.fault.Concerns ls n ∧ e.offset = offsetAt ls text.utf8ByteSize n := by
  intro h
  have hls : lexemes 0 "[y for x in y]".toList =
      .ok [⟨.mark .bracketOpen, 0⟩, ⟨.name "y", 1⟩, ⟨.mark .kwFor, 3⟩, ⟨.name "x", 7⟩,
        ⟨.mark .kwIn, 9⟩, ⟨.name "y", 12⟩, ⟨.mark .bracketClose, 13⟩] := by
    decide +kernel
  have hparse : parse "[y for x in y]" = .error ⟨9, .reservedName "x"⟩ := by
    rw [parse, hls]
    rfl
  obtain ⟨n, hconcerns, hoffset⟩ := h _ _ _ hls hparse
  have helsewhere : ∀ n < 7, 9 = offsetAt [⟨.mark .bracketOpen, 0⟩, ⟨.name "y", 1⟩,
      ⟨.mark .kwFor, 3⟩, ⟨.name "x", 7⟩, ⟨.mark .kwIn, 9⟩, ⟨.name "y", 12⟩,
      ⟨.mark .bracketClose, 13⟩] 14 n → n = 4 := by
    decide
  obtain rfl := helsewhere n (hconcerns.lt_length trivial) hoffset
  cases hconcerns.1

end Expr

end Waypoints
