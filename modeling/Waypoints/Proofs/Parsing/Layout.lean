import Waypoints.Expr.Formula
import Waypoints.Proofs.Lexing.Layout
import Waypoints.Proofs.Parsing.Steps
/-!
# Layout does not matter

A parser is `Blind` if what it reads and what it refuses depend on the tokens ahead and on the open
levels, and not on the offsets of the tokens. The parsers of the grammar are. So a text and a
respacing of it read as the same expression or are refused for the same reason
(`Expr.layout_irrelevant`).
-/

set_option autoImplicit false
set_option relaxedAutoImplicit false

namespace Waypoints

namespace Parser

variable {α β : Type}

/-- The outcome of a parser without the offsets. -/
def forget : Except ParseError (α × Cursor) → Except ParseFault (α × List Token × Nat)
  | .ok (a, c) => .ok (a, c.tokens, c.depth)
  | .error e => .error e.fault

/-- The outcome of a parser, up to offsets, depends on the tokens ahead and on the open levels. -/
def Blind (p : Parser α) : Prop :=
  ∀ c c' : Cursor, c.tokens = c'.tokens → c.depth = c'.depth → forget (p c) = forget (p c')

/-- Outcomes that are the same up to offsets. -/
theorem forget_eq {x y : Except ParseError (α × Cursor)} (h : forget x = forget y) :
    (∃ e e', x = .error e ∧ y = .error e' ∧ e.fault = e'.fault) ∨
      ∃ a c c', x = .ok (a, c) ∧ y = .ok (a, c') ∧ c.tokens = c'.tokens ∧ c.depth = c'.depth := by
  rcases x with e | ⟨a, c⟩ <;> rcases y with e' | ⟨a', c'⟩
  · exact .inl ⟨e, e', rfl, rfl, by simpa [forget] using h⟩
  · cases h
  · cases h
  · obtain ⟨rfl, htokens, hdepth⟩ : a = a' ∧ c.tokens = c'.tokens ∧ c.depth = c'.depth := by
      simpa [forget] using h
    exact .inr ⟨a, c, c', rfl, rfl, htokens, hdepth⟩

theorem blind_pure (a : α) : Blind (pure a : Parser α) := by
  intro c c' htokens hdepth
  change Except.ok (a, c.tokens, c.depth) = .ok (a, c'.tokens, c'.depth)
  rw [htokens, hdepth]

theorem Blind.bind {p : Parser α} {f : α → Parser β} (hp : Blind p) (hf : ∀ a, Blind (f a)) :
    Blind (p >>= f) := by
  intro c c' htokens hdepth
  change forget ((p c).bind fun r ↦ f r.1 r.2) = forget ((p c').bind fun r ↦ f r.1 r.2)
  rcases forget_eq (hp c c' htokens hdepth) with
    ⟨e, e', hx, hy, hfault⟩ | ⟨a, d, d', hx, hy, htokens, hdepth⟩ <;> rw [hx, hy]
  · exact congrArg Except.error hfault
  · exact hf a d d' htokens hdepth

theorem blind_peek? : Blind peek? := by
  intro c c' htokens hdepth
  change Except.ok (c.peek?, c.tokens, c.depth) = .ok (c'.peek?, c'.tokens, c'.depth)
  rw [c.peek?_eq, c'.peek?_eq, htokens, hdepth]

theorem blind_advance : Blind advance := by
  intro c c' htokens hdepth
  change Except.ok ((), c.advance.tokens, c.depth) = .ok ((), c'.advance.tokens, c'.depth)
  rw [c.tokens_advance, c'.tokens_advance, htokens, hdepth]

theorem blind_refuse (fault : ParseFault) : Blind (refuse fault : Parser α) :=
  fun _ _ _ _ ↦ rfl

theorem blind_setDepth (f : Nat → Nat) :
    Blind (modify fun c ↦ { c with depth := f c.depth } : Parser Unit) := by
  intro c c' htokens hdepth
  change Except.ok ((), c.tokens, f c.depth) = .ok ((), c'.tokens, f c'.depth)
  rw [htokens, hdepth]

/-- A parser may look at the number of open levels. -/
theorem blind_get {f : Cursor → Parser α} (hdepth : ∀ c c', c.depth = c'.depth → f c = f c')
    (hf : ∀ c, Blind (f c)) : Blind (get >>= f) := by
  intro c c' htokens hlevels
  change forget (f c c) = forget (f c' c')
  rw [hdepth c c' hlevels]
  exact hf c' c c' htokens hlevels

theorem blind_ite {p q : Parser α} {b : Prop} [Decidable b] (hp : Blind p) (hq : Blind q) :
    Blind (if b then p else q) := by
  split
  · exact hp
  · exact hq

theorem blind_take? (kind : Option Token → Option β) : Blind (take? kind) := by
  refine blind_peek?.bind fun found ↦ ?_
  cases kind found with
  | none => exact blind_pure _
  | some b => exact blind_advance.bind fun _ ↦ blind_pure _

theorem blind_eat (m : Mark) : Blind (eat m) :=
  blind_peek?.bind fun _ ↦ blind_ite (blind_advance.bind fun _ ↦ blind_pure _) (blind_pure _)

theorem blind_expect (m : Mark) : Blind (expect m) :=
  (blind_eat m).bind fun _ ↦
    blind_ite (blind_pure _) (blind_peek?.bind fun _ ↦ blind_refuse _)

theorem blind_descend : Blind descend :=
  (blind_setDepth (· + 1)).bind fun _ ↦
    blind_get (fun c c' h ↦ by rw [h]) fun _ ↦ blind_ite (blind_refuse _) (blind_pure _)

theorem blind_loopVar : Blind loopVar := by
  refine blind_peek?.bind fun found ↦ blind_advance.bind fun _ ↦ ?_
  rcases found with _ | (value | word | mark)
  · exact blind_refuse _
  · exact blind_refuse _
  · exact blind_ite (blind_refuse _) (blind_pure _)
  · exact blind_refuse _

theorem blind_atomWord? : Blind atomWord? := by
  refine (blind_take? _).bind fun word ↦ ?_
  cases word with
  | none => exact blind_pure _
  | some word =>
    exact blind_peek?.bind fun _ ↦ blind_ite (blind_refuse _) (blind_pure _)

theorem blind_expectEnd : Blind expectEnd := by
  refine blind_peek?.bind fun found ↦ ?_
  cases found with
  | none => exact blind_pure _
  | some token => exact blind_refuse _

/-- The steps of the grammar do not look at offsets. -/
theorem blind_steps : Steps Blind where
  pure := blind_pure
  bind := Blind.bind
  take? := blind_take?
  eat := blind_eat
  expect := blind_expect
  expectEnd := blind_expectEnd
  refuseNext := blind_peek?.bind fun _ ↦ blind_refuse _
  atomWord? := blind_atomWord?
  forVar? := (blind_eat _).bind fun _ ↦
    blind_ite (blind_loopVar.bind fun _ ↦ blind_pure _) (blind_pure _)
  rangeArity _ := blind_refuse _
  stalled := blind_refuse _
  descend := blind_descend
  nested hp := blind_descend.bind fun _ ↦ hp.bind fun _ ↦
    (blind_setDepth (· - 1)).bind fun _ ↦ blind_pure _
  closing hp := blind_get (fun c c' h ↦ by rw [h]) fun c ↦ hp.bind fun _ ↦
    (blind_setDepth fun _ ↦ c.depth).bind fun _ ↦ blind_pure _

end Parser

namespace Expr

variable {text text' : String} {ls ls' : List Lexeme}

/-- Texts with the same tokens read as the same expression or are refused for the same reason. -/
theorem parse_eq_of_tokens (hls : lexemes 0 text.toList = .ok ls)
    (hls' : lexemes 0 text'.toList = .ok ls') (htokens : ls'.map (·.token) = ls.map (·.token)) :
    (parse text').mapError (·.fault) = (parse text).mapError (·.fault) := by
  have hsteps : parseSteps ls' = parseSteps ls := by
    rw [parseSteps, parseSteps, ← List.length_map (·.token), htokens, List.length_map]
  let whole : Parser Expr := do
    let e ← Parser.expr (parseSteps ls)
    Parser.expectEnd
    return e
  have hwhole : whole.Blind :=
    (Parser.blind_steps.holds _).expr.bind fun e ↦
      Parser.blind_expectEnd.bind fun _ ↦ Parser.blind_pure e
  have hparse : parse text = Prod.fst <$> whole (start text ls) := by
    rw [parse, hls]
    rfl
  have hparse' : parse text' = Prod.fst <$> whole (start text' ls') := by
    rw [parse, hls']
    change parseTokens text' ls' = _
    rw [parseTokens, hsteps]
    rfl
  have hforget := hwhole (start text' ls') (start text ls) htokens rfl
  rw [hparse, hparse']
  rcases Parser.forget_eq hforget with ⟨e, e', hx, hy, hfault⟩ | ⟨a, c, c', hx, hy, -, -⟩ <;>
    rw [hx, hy]
  · exact congrArg Except.error hfault
  · rfl

/-- Formulas with the same expression have the same paths or fail for the same reason. -/
theorem relativePaths_eq {f f' : Formula} (h : f'.expr = f.expr) (b : Bindings) :
    (f'.relativePaths b).mapError (·.cause) = (f.relativePaths b).mapError (·.cause) := by
  unfold Formula.relativePaths
  rw [h]
  cases f.expr.evaluate b with
  | error fault => rfl
  | ok v =>
    dsimp only
    cases v.toPaths? <;> rfl

/-- Every text of tokens is blanks and words with blanks after them. Whatever the blanks are, as
long as some are left between two words where there were any, the text has the same tokens, reads as
the same expression or is refused for the same reason, and evaluates to the same value and the same
paths or fails for the same reason.

Assumes: the text is made of tokens. -/
theorem layout_irrelevant (hls : lexemes 0 text.toList = .ok ls) :
    (∃ gap chunks, Laid text gap chunks) ∧
      ∀ text' gap chunks gap' chunks', Laid text gap chunks → Respaced chunks chunks' →
        gap'.all isBlank → text'.toList = gap' ++ chunkText chunks' →
        (∃ ls', lexemes 0 text'.toList = .ok ls' ∧ ls'.map (·.token) = ls.map (·.token)) ∧
        (parse text').mapError (·.fault) = (parse text).mapError (·.fault) ∧
        ∀ f f' : Formula, f.source = text → f'.source = text' → ∀ b,
          f'.expr.evaluate b = f.expr.evaluate b ∧
            (f'.relativePaths b).mapError (·.cause) = (f.relativePaths b).mapError (·.cause) := by
  refine ⟨exists_laid hls, ?_⟩
  intro text' gap chunks gap' chunks' hlaid hrespaced hgap' htext'
  have hlaid' : Laid text' gap' chunks' := ⟨htext', hgap', hlaid.chunked.respaced hrespaced⟩
  have htokens : (chunkLexemes gap'.length chunks').map (·.token) = ls.map (·.token) := by
    rw [Except.ok.inj (hls.symm.trans hlaid.lexemes_eq), map_token_chunkLexemes,
      map_token_chunkLexemes, hrespaced.tokens]
  have hparse := parse_eq_of_tokens hls hlaid'.lexemes_eq htokens
  refine ⟨⟨_, hlaid'.lexemes_eq, htokens⟩, hparse, ?_⟩
  rintro f f' rfl rfl b
  rw [f.parsed, f'.parsed] at hparse
  have hexpr : f'.expr = f.expr := Except.ok.inj hparse
  exact ⟨by rw [hexpr], relativePaths_eq hexpr b⟩

/-- A number before a name that could have been its exponent, with blanks around the name. -/
theorem layout_irrelevant_exponent :
    (∃ ls, lexemes 0 "2e*x".toList = .ok ls) ∧
      (parse "\n2 e\t*x").mapError (·.fault) = (parse "2e*x").mapError (·.fault) := by
  let two : Token := .number (NumberWord.ofPrefix ['2', 'e', '*', 'x']).value
  have htwo : Token.read? ['2', 'e', '*', 'x'] = some ⟨two, ['2'], ['e', '*', 'x']⟩ := rfl
  have he : Token.read? ['e', '*', 'x'] = some ⟨.name "e", ['e'], ['*', 'x']⟩ := rfl
  have hstar : Token.read? ['*', 'x'] = some ⟨.mark .star, ['*'], ['x']⟩ := rfl
  have hx : Token.read? ['x'] = some ⟨.name "x", ['x'], []⟩ := rfl
  let chunks : List Chunk := [⟨two, ['2'], []⟩, ⟨.name "e", ['e'], []⟩, ⟨.mark .star, ['*'], []⟩,
    ⟨.name "x", ['x'], []⟩]
  have hchunks : Chunked [] chunks :=
    .cons (Token.longest_of_read? htwo) rfl (.cons (Token.longest_of_read? he) rfl
      (.cons (Token.longest_of_read? hstar) rfl (.cons (Token.longest_of_read? hx) rfl .nil)))
  have hlaid : Laid "2e*x" [] chunks := ⟨rfl, rfl, hchunks⟩
  have hrespaced : Respaced chunks [⟨two, ['2'], [' ']⟩, ⟨.name "e", ['e'], ['\t']⟩,
      ⟨.mark .star, ['*'], []⟩, ⟨.name "x", ['x'], []⟩] :=
    .cons rfl (.inl rfl) (.cons rfl (.inl rfl) (.cons rfl (.inl rfl) (.cons rfl (.inl rfl) .nil)))
  have hsame := (layout_irrelevant hlaid.lexemes_eq).2 "\n2 e\t*x" _ _ ['\n'] _ hlaid hrespaced
    rfl rfl
  exact ⟨⟨_, hlaid.lexemes_eq⟩, hsame.2.1⟩

end Expr

end Waypoints
