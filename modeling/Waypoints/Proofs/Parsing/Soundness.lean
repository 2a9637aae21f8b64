import Waypoints.Proofs.Parsing.Ensures
import Waypoints.Proofs.Parsing.Grammar
/-!
# What is read is a phrase

Every parser of the grammar that reads something has passed over a phrase of its symbol, with the
tree that it returns; the levels of the phrase fit under the limit, and all of them are closed
again. `Parser.Takes` states this for one parser, and the theorems `takes_expr` to `takes_filters`
are one production each: the parser with one more step, from the parsers it calls. `soundAt` puts
them together by induction on the allowance of steps.
-/

set_option autoImplicit false
set_option relaxedAutoImplicit false

namespace Waypoints

/-! ### From place to place -/

namespace Cursor

theorem depth_advance_le {c : Cursor} (h : c.depth ≤ maxNesting) :
    c.advance.depth ≤ maxNesting := h

/-- Between two places there are these tokens, on which so many levels are open at once, under the
limit and none of them at the end. -/
structure Passes (c c' : Cursor) (ts : List Token) (n : Nat) : Prop where
  tokens_eq : c.tokens = ts ++ c'.tokens
  levels_le : c.depth + n ≤ maxNesting
  depth_eq : c'.depth = c.depth

namespace Passes

variable {c c₁ c₂ : Cursor} {ts us : List Token} {t : Token} {m n : Nat}

theorem refl (hc : c.depth ≤ maxNesting) : c.Passes c [] 0 :=
  ⟨rfl, hc, rfl⟩

theorem depth_le (h : c.Passes c₁ ts n) : c₁.depth ≤ maxNesting := by
  have := h.levels_le
  have := h.depth_eq
  omega

theorem trans (h : c.Passes c₁ ts m) (h' : c₁.Passes c₂ us n) :
    c.Passes c₂ (ts ++ us) (max m n) where
  tokens_eq := by rw [h.tokens_eq, h'.tokens_eq, List.append_assoc]
  levels_le := by
    have := h.levels_le
    have := h'.levels_le
    have := h.depth_eq
    omega
  depth_eq := h'.depth_eq.trans h.depth_eq

/-- A token opens no level. -/
theorem cons (ht : c.peek? = some t) (h : c.advance.Passes c₁ ts n) : c.Passes c₁ (t :: ts) n where
  tokens_eq := by rw [tokens_eq_cons ht, h.tokens_eq, List.cons_append]
  levels_le := h.levels_le
  depth_eq := h.depth_eq

theorem concat (h : c.Passes c₁ ts n) (ht : c₁.peek? = some t) :
    c.Passes c₁.advance (ts ++ [t]) n where
  tokens_eq := by rw [h.tokens_eq, tokens_eq_cons ht, List.append_assoc, List.singleton_append]
  levels_le := h.levels_le
  depth_eq := h.depth_eq

/-- What is passed one level down. -/
theorem up (h : (c.withDepth (c.depth + 1)).Passes c₁ ts n) :
    c.Passes (c₁.withDepth (c₁.depth - 1)) ts (n + 1) where
  tokens_eq := h.tokens_eq
  levels_le := by
    have := h.levels_le
    rw [depth_withDepth] at this
    omega
  depth_eq := by
    have := h.depth_eq
    rw [depth_withDepth] at this ⊢
    omega

/-- What is passed one level down, if the level is closed later. -/
theorem up_of_withDepth
    (h : (c.withDepth (c.depth + 1)).Passes (c₁.withDepth (c.depth + 1)) ts n) :
    c.Passes (c₁.withDepth c.depth) ts (n + 1) where
  tokens_eq := h.tokens_eq
  levels_le := by
    have := h.levels_le
    rw [depth_withDepth] at this
    omega
  depth_eq := rfl

end Passes

end Cursor

/-! ### Sound parsers -/

namespace Parser

open StateT (ensures_bind ensures_ite ensures_get)

/-- A parser that reads something has passed over tokens that are related to its result. -/
def Takes {α : Type} (p : Parser α) (R : List Token → α → Nat → Prop) : Prop :=
  ∀ c, c.depth ≤ maxNesting →
    p.Ensures c (fun a c' ↦ ∃ ts n, c.Passes c' ts n ∧ R ts a n) fun _ ↦ True

/-- The tokens of a row of expressions up to a closing mark, which may be empty. -/
def ItemsUpTo (close : Mark) (ts : List Token) (items : List Expr) (n : Nat) : Prop :=
  ts = [.mark close] ∧ items = [] ∧ n = 0 ∨
    ∃ us, ts = us ++ [.mark close] ∧ Phrase .exprs us items n

/-- The parsers with an allowance of `n` steps read phrases of their symbols. Those of brackets and
clauses begin after the first mark of their phrase. -/
structure SoundAt (n : Nat) : Prop where
  expr : (expr n).Takes (Phrase .expr)
  row (r : Row) : (row n r).Takes (Phrase (.row r))
  /-- The levels of a row's operators are closed by the row. -/
  rowRest (r : Row) (lhs : Expr) (c : Cursor) : c.depth ≤ maxNesting →
    (rowRest n r lhs).Ensures c
      (fun e c' ↦ ∃ ts m, c.Passes (c'.withDepth c.depth) ts m ∧ Phrase (.rest r lhs) ts e m)
      fun _ ↦ True
  operand (r : Row) : (operand n r).Takes (Phrase (.operand r))
  inversion : (inversion n).Takes (Phrase .inversion)
  comparison : (comparison n).Takes (Phrase .comparison)
  links : (links n).Takes (Phrase .links)
  factor : (factor n).Takes (Phrase .factor)
  atom : (atom n).Takes (Phrase .atom)
  parenthesized : (parenthesized n).Takes fun ts ↦ Phrase .atom (.mark .parenOpen :: ts)
  bracketed : (bracketed n).Takes fun ts ↦ Phrase .atom (.mark .bracketOpen :: ts)
  sequence (close : Mark) : (sequence n close).Takes (ItemsUpTo close)
  clauses : (clauses n).Takes (Phrase .clauses)
  clause : (clause n).Takes fun ts ↦ Phrase .clause (.mark .kwFor :: ts)
  filters : (filters n).Takes (Phrase .filters)

/-- A sound parser ensures what follows from its phrase, whatever it refuses. -/
theorem Takes.ensures {α : Type} {p : Parser α} {R : List Token → α → Nat → Prop}
    (h : p.Takes R) {c : Cursor} (hc : c.depth ≤ maxNesting) {ok : α → Cursor → Prop}
    (hok : ∀ a c' ts n, c.Passes c' ts n → R ts a n → ok a c') :
    p.Ensures c ok fun _ ↦ True := by
  refine (h c hc).mono ?_ fun _ _ ↦ trivial
  rintro a c' ⟨ts, n, hpass, hR⟩
  exact hok a c' ts n hpass hR

/-- A sound parser, one level down. -/
theorem Takes.nested {α : Type} {p : Parser α} {R : List Token → α → Nat → Prop}
    (h : p.Takes R) {c : Cursor} {ok : α → Cursor → Prop}
    (hok : ∀ a c' ts n, c.Passes c' ts (n + 1) → R ts a n → ok a c') :
    (nested p).Ensures c ok fun _ ↦ True := by
  rw [ensures_nested]
  split
  · trivial
  · next hdeep =>
    exact h.ensures (Nat.le_of_not_lt hdeep) fun a c' ts n hpass hR ↦ hok a _ ts n hpass.up hR

variable {n : Nat}

/-! ### The productions -/

theorem takes_expr (ih : SoundAt n) : (expr (n + 1)).Takes (Phrase .expr) := by
  intro c hc
  rw [Parser.expr, ensures_nested]
  split
  · trivial
  next hdeep =>
  rw [ensures_bind]
  refine (ih.row _).ensures (Nat.le_of_not_lt hdeep) fun value c₁ ts k hvalue hv ↦ ?_
  rw [ensures_bind, ensures_eat]
  split
  · next hif =>
    rw [if_pos rfl, ensures_bind]
    refine (ih.row _).ensures (Cursor.depth_advance_le hvalue.depth_le)
      fun condition c₂ us m hcondition hc ↦ ?_
    rw [ensures_bind, ensures_expect]
    split
    · next helse =>
      rw [ensures_bind]
      refine ih.expr.ensures (Cursor.depth_advance_le hcondition.depth_le)
        fun otherwise c₃ ws l hotherwise ho ↦ ?_
      have hpass := hvalue.trans (.cons hif (hcondition.trans (.cons helse hotherwise)))
      exact ⟨_, _, hpass.up, .conditional hv hc ho⟩
    · trivial
  · exact ⟨ts, _, hvalue.up, .plain hv⟩

theorem takes_row (ih : SoundAt n) (r : Row) : (row (n + 1) r).Takes (Phrase (.row r)) := by
  intro c hc
  rw [Parser.row, ensures_bind]
  refine (ih.operand r).ensures hc fun first c₁ ts m hfirst hf ↦ ?_
  rw [ensures_bind, ensures_get, ensures_bind]
  refine (ih.rowRest r first c₁ hfirst.depth_le).mono ?_ fun _ _ ↦ trivial
  rintro joined c₂ ⟨us, k, hrest, hj⟩
  exact ⟨ts ++ us, _, hfirst.trans hrest, .row hf hj⟩

theorem takes_rowRest (ih : SoundAt n) (r : Row) (lhs : Expr) (c : Cursor)
    (hc : c.depth ≤ maxNesting) : (rowRest (n + 1) r lhs).Ensures c
      (fun e c' ↦ ∃ ts m, c.Passes (c'.withDepth c.depth) ts m ∧ Phrase (.rest r lhs) ts e m)
      fun _ ↦ True := by
  rw [Parser.rowRest, ensures_bind, ensures_peek?]
  cases hat : r.joinAt? c.peek? with
  | none => exact ⟨[], 0, .refl hc, .restNil⟩
  | some join =>
    obtain ⟨mark, hmark, hjoin⟩ := exists_joins_of_joinAt? hat
    rw [ensures_bind, ensures_advance, ensures_bind, ensures_descend]
    split
    · trivial
    next hdeep =>
    rw [ensures_bind]
    refine (ih.operand r).ensures (Nat.le_of_not_lt hdeep) fun rhs c₁ ts m hrhs hr ↦ ?_
    refine (ih.rowRest r (join lhs rhs) c₁ hrhs.depth_le).mono ?_ fun _ _ ↦ trivial
    rintro joined c₂ ⟨us, k, hrest, hj⟩
    rw [hrhs.depth_eq] at hrest
    exact ⟨_, _, .cons hmark (hrhs.trans hrest).up_of_withDepth, .restCons hjoin hr hj⟩

theorem takes_operand (ih : SoundAt n) (r : Row) :
    (operand (n + 1) r).Takes (Phrase (.operand r)) := by
  intro c hc
  cases r with
  | disjunction => exact (ih.row _).ensures hc fun e c' ts m h he ↦ ⟨ts, m, h, .conjunction he⟩
  | conjunction => exact ih.inversion.ensures hc fun e c' ts m h he ↦ ⟨ts, m, h, .inversion he⟩
  | sum => exact (ih.row _).ensures hc fun e c' ts m h he ↦ ⟨ts, m, h, .term he⟩
  | term => exact ih.factor.ensures hc fun e c' ts m h he ↦ ⟨ts, m, h, .factor he⟩

theorem takes_inversion (ih : SoundAt n) : (inversion (n + 1)).Takes (Phrase .inversion) := by
  intro c hc
  rw [Parser.inversion, ensures_bind, ensures_eat]
  split
  · next hnot =>
    rw [if_pos rfl, ensures_bind]
    refine ih.inversion.nested fun e c' ts m h he ↦ ?_
    exact ⟨_, _, .cons hnot h, .not he⟩
  · exact ih.comparison.ensures hc fun e c' ts m h he ↦ ⟨ts, m, h, .comparison he⟩

theorem takes_comparison (ih : SoundAt n) : (comparison (n + 1)).Takes (Phrase .comparison) := by
  intro c hc
  rw [Parser.comparison, ensures_bind]
  refine (ih.row _).ensures hc fun first c₁ ts m hfirst hf ↦ ?_
  rw [ensures_bind]
  refine ih.links.ensures hfirst.depth_le fun links c₂ us k hlinks hl ↦ ?_
  cases links with
  | nil =>
    obtain ⟨rfl, rfl⟩ : us = [] ∧ k = 0 := by
      cases hl
      exact ⟨rfl, rfl⟩
    have hpass := hfirst.trans hlinks
    rw [List.append_nil, Nat.max_zero] at hpass
    exact ⟨ts, m, hpass, .sum hf⟩
  | cons link more => exact ⟨ts ++ us, _, hfirst.trans hlinks, .compare hf hl⟩

theorem takes_links (ih : SoundAt n) : (links (n + 1)).Takes (Phrase .links) := by
  intro c hc
  rw [Parser.links, ensures_bind, ensures_peek?]
  cases hat : CompareOp.at? c.peek? with
  | none => exact ⟨[], 0, .refl hc, .linksNil⟩
  | some op =>
    obtain ⟨mark, hmark, hop⟩ := exists_compares_of_at? hat
    rw [ensures_bind, ensures_advance, ensures_bind]
    refine (ih.row _).ensures (Cursor.depth_advance_le hc) fun operand c₁ ts m hoperand ho ↦ ?_
    rw [ensures_bind]
    refine ih.links.ensures hoperand.depth_le fun more c₂ us k hmore hl ↦ ?_
    exact ⟨_, _, .cons hmark (hoperand.trans hmore), .linksCons hop ho hl⟩

theorem takes_factor (ih : SoundAt n) : (factor (n + 1)).Takes (Phrase .factor) := by
  intro c hc
  rw [Parser.factor, ensures_bind, ensures_peek?]
  cases hsign : UnaryOp.signAt? c.peek? with
  | some op =>
    obtain ⟨mark, hmark, hsigns⟩ := exists_signs_of_signAt? hsign
    rw [ensures_bind, ensures_advance, ensures_bind]
    refine ih.factor.nested fun e c₁ ts m h he ↦ ?_
    exact ⟨_, _, .cons hmark h, .sign hsigns he⟩
  | none =>
    rw [ensures_bind]
    refine ih.atom.ensures hc fun base c₁ ts m hbase hb ↦ ?_
    rw [ensures_bind, ensures_eat]
    split
    · next hpower =>
      rw [if_pos rfl, ensures_bind]
      refine ih.factor.nested fun exponent c₂ us k hexponent he ↦ ?_
      exact ⟨_, _, hbase.trans (.cons hpower hexponent), .power hb he⟩
    · exact ⟨ts, m, hbase, .atom hb⟩

theorem takes_range (ih : SoundAt n) {c : Cursor} (hc : c.depth ≤ maxNesting)
    (hrange : c.peek? = some (.name "range")) :
    (do
      expect .parenOpen
      let args ← sequence n .parenClose
      if args.isEmpty || 3 < args.length then
        refuse (.rangeArity args.length)
      else
        return .range args : Parser Expr).Ensures c.advance
      (fun e c' ↦ ∃ ts m, c.Passes c' ts m ∧ Phrase .atom ts e m) fun _ ↦ True := by
  rw [ensures_bind, ensures_expect]
  split
  · next hopen =>
    rw [ensures_bind]
    refine (ih.sequence _).ensures (c := c.advance.advance) hc fun args c₁ ts m hargs ha ↦ ?_
    rw [ensures_ite]
    split
    · trivial
    next harity =>
    rw [Bool.or_eq_true, not_or, List.isEmpty_iff, decide_eq_true_eq, Nat.not_lt] at harity
    rcases ha with ⟨-, hnil, -⟩ | ⟨us, rfl, hphrase⟩
    · exact absurd hnil harity.1
    · exact ⟨_, _, .cons hrange (.cons hopen hargs), .range hphrase harity.2⟩
  · trivial

theorem takes_atom (ih : SoundAt n) : (atom (n + 1)).Takes (Phrase .atom) := by
  intro c hc
  rw [Parser.atom, ensures_bind, ensures_peek?]
  rcases hpeek : c.peek? with _ | value | word | mark
  · trivial
  · exact ⟨_, _, .cons hpeek (.refl hc), .number⟩
  · rw [ensures_bind, ensures_advance, ensures_ite]
    split
    · next hword =>
      rw [hword] at hpeek
      exact takes_range ih hc hpeek
    · next hword =>
      rw [ensures_bind, ensures_peek?, ensures_ite]
      split
      · trivial
      · exact ⟨_, _, .cons hpeek (.refl hc), .name hword⟩
  · cases mark with
    | parenOpen =>
      rw [ensures_bind, ensures_advance]
      refine ih.parenthesized.ensures (Cursor.depth_advance_le hc) fun e c₁ ts m h he ↦ ?_
      exact ⟨_, _, .cons hpeek h, he⟩
    | bracketOpen =>
      rw [ensures_bind, ensures_advance]
      refine ih.bracketed.ensures (Cursor.depth_advance_le hc) fun e c₁ ts m h he ↦ ?_
      exact ⟨_, _, .cons hpeek h, he⟩
    | _ => trivial

theorem takes_parenthesized (ih : SoundAt n) :
    (parenthesized (n + 1)).Takes fun ts ↦ Phrase .atom (.mark .parenOpen :: ts) := by
  intro c hc
  rw [Parser.parenthesized, ensures_bind, ensures_eat]
  split
  · next hclose => exact ⟨_, _, .cons hclose (.refl hc), .unit⟩
  rw [if_neg Bool.false_ne_true, ensures_bind]
  refine ih.expr.ensures hc fun first c₁ ts m hfirst hf ↦ ?_
  rw [ensures_bind, ensures_eat]
  split
  · next hclose => exact ⟨_, _, hfirst.concat hclose, .group hf⟩
  rw [if_neg Bool.false_ne_true, ensures_bind, ensures_expect]
  split
  · next hcomma =>
    rw [ensures_bind]
    refine (ih.sequence _).ensures (Cursor.depth_advance_le hfirst.depth_le)
      fun items c₂ us k hitems hi ↦ ?_
    have hpass := hfirst.trans (.cons hcomma hitems)
    rcases hi with ⟨rfl, rfl, rfl⟩ | ⟨ws, rfl, hphrase⟩
    · rw [Nat.max_zero] at hpass
      exact ⟨_, _, hpass, .single hf⟩
    · exact ⟨_, _, hpass, .tuple hf hphrase⟩
  · trivial

theorem takes_bracketed (ih : SoundAt n) :
    (bracketed (n + 1)).Takes fun ts ↦ Phrase .atom (.mark .bracketOpen :: ts) := by
  intro c hc
  rw [Parser.bracketed, ensures_bind, ensures_eat]
  split
  · next hclose => exact ⟨_, _, .cons hclose (.refl hc), .empty⟩
  rw [if_neg Bool.false_ne_true, ensures_bind]
  refine ih.expr.ensures hc fun first c₁ ts m hfirst hf ↦ ?_
  rw [ensures_bind]
  refine ih.clauses.ensures hfirst.depth_le fun clauses c₂ us k hclauses hcl ↦ ?_
  have hpass := hfirst.trans hclauses
  cases clauses with
  | cons clause more =>
    change ((do
      expect .bracketClose
      return .comprehension first (clause :: more)) : Parser Expr).Ensures _ _ _
    rw [ensures_bind, ensures_expect]
    split
    · next hclose =>
      refine ⟨_, _, hpass.concat hclose, ?_⟩
      rw [List.append_assoc]
      exact .comprehension hf hcl
    · trivial
  | nil =>
    obtain ⟨rfl, rfl⟩ : us = [] ∧ k = 0 := by
      cases hcl
      exact ⟨rfl, rfl⟩
    rw [List.append_nil, Nat.max_zero] at hpass
    change ((do
      if ← eat .comma then
        return .list (first :: (← sequence n .bracketClose))
      else
        expect .bracketClose
        return .list [first]) : Parser Expr).Ensures _ _ _
    rw [ensures_bind, ensures_eat]
    split
    · next hcomma =>
      rw [if_pos rfl, ensures_bind]
      refine (ih.sequence _).ensures (Cursor.depth_advance_le hpass.depth_le)
        fun items c₃ ws l hitems hi ↦ ?_
      have hall := hpass.trans (.cons hcomma hitems)
      rcases hi with ⟨rfl, rfl, rfl⟩ | ⟨vs, rfl, hphrase⟩
      · rw [Nat.max_zero] at hall
        refine ⟨_, _, hall, ?_⟩
        have := Phrase.list (.trailing hf)
        rwa [List.append_assoc] at this
      · refine ⟨_, _, hall, ?_⟩
        have := Phrase.list (.more hf hphrase)
        rwa [List.append_assoc] at this
    · rw [if_neg Bool.false_ne_true, ensures_bind, ensures_expect]
      split
      · next hclose => exact ⟨_, _, hpass.concat hclose, .list (.last hf)⟩
      · trivial

theorem takes_sequence (ih : SoundAt n) (close : Mark) :
    (sequence (n + 1) close).Takes (ItemsUpTo close) := by
  intro c hc
  rw [Parser.sequence, ensures_bind, ensures_eat]
  split
  · next hclose => exact ⟨_, _, .cons hclose (.refl hc), .inl ⟨rfl, rfl, rfl⟩⟩
  rw [if_neg Bool.false_ne_true, ensures_bind]
  refine ih.expr.ensures hc fun item c₁ ts m hitem hi ↦ ?_
  rw [ensures_bind, ensures_eat]
  split
  · next hcomma =>
    rw [if_pos rfl, ensures_bind]
    refine (ih.sequence _).ensures (Cursor.depth_advance_le hitem.depth_le)
      fun items c₂ us k hitems hrow ↦ ?_
    have hpass := hitem.trans (.cons hcomma hitems)
    refine ⟨_, _, hpass, .inr ?_⟩
    rcases hrow with ⟨rfl, rfl, rfl⟩ | ⟨ws, rfl, hphrase⟩
    · rw [Nat.max_zero]
      exact ⟨ts ++ [.mark .comma], by rw [List.append_assoc, List.singleton_append], .trailing hi⟩
    · exact ⟨ts ++ .mark .comma :: ws, by rw [List.append_assoc, List.cons_append],
        .more hi hphrase⟩
  · rw [if_neg Bool.false_ne_true, ensures_bind, ensures_expect]
    split
    · next hclose => exact ⟨_, _, hitem.concat hclose, .inr ⟨ts, rfl, .last hi⟩⟩
    · trivial

theorem takes_clauses (ih : SoundAt n) : (clauses (n + 1)).Takes (Phrase .clauses) := by
  intro c hc
  rw [Parser.clauses, ensures_bind, ensures_eat]
  split
  · next hfor =>
    rw [if_pos rfl, ensures_bind]
    refine ih.clause.ensures (Cursor.depth_advance_le hc) fun first c₁ ts m hfirst hf ↦ ?_
    rw [ensures_bind]
    refine ih.clauses.ensures hfirst.depth_le fun more c₂ us k hmore hm ↦ ?_
    exact ⟨_, _, .cons hfor (hfirst.trans hmore), .clausesCons hf hm⟩
  · exact ⟨[], 0, .refl hc, .clausesNil⟩

theorem takes_clause (ih : SoundAt n) :
    (clause (n + 1)).Takes fun ts ↦ Phrase .clause (.mark .kwFor :: ts) := by
  intro c hc
  rw [Parser.clause, ensures_bind, ensures_peek?, ensures_bind, ensures_advance]
  rcases hpeek : c.peek? with _ | _ | loopVar | _
  · trivial
  · trivial
  · dsimp only
    rw [ensures_ite]
    split
    · trivial
    next hreserved =>
    rw [List.contains_iff_mem] at hreserved
    rw [ensures_bind, ensures_expect]
    split
    · next hin =>
      rw [ensures_bind]
      refine (ih.row _).ensures (c := c.advance.advance) hc fun items c₁ ts m hitems hi ↦ ?_
      rw [ensures_bind]
      refine ih.filters.ensures hitems.depth_le fun filters c₂ us k hfilters hf ↦ ?_
      exact ⟨_, _, .cons hpeek (.cons hin (hitems.trans hfilters)), .clause hreserved hi hf⟩
    · trivial
  · trivial

theorem takes_filters (ih : SoundAt n) : (filters (n + 1)).Takes (Phrase .filters) := by
  intro c hc
  rw [Parser.filters, ensures_bind, ensures_eat]
  split
  · next hif =>
    rw [if_pos rfl, ensures_bind]
    refine (ih.row _).ensures (Cursor.depth_advance_le hc) fun condition c₁ ts m hcondition hc ↦ ?_
    rw [ensures_bind]
    refine ih.filters.ensures hcondition.depth_le fun more c₂ us k hmore hm ↦ ?_
    exact ⟨_, _, .cons hif (hcondition.trans hmore), .filtersCons hc hm⟩
  · exact ⟨[], 0, .refl hc, .filtersNil⟩

/-! ### All parsers -/

/-- Without steps, every parser refuses the text. -/
theorem soundAt_zero : SoundAt 0 where
  expr _ _ := trivial
  row _ _ _ := trivial
  rowRest _ _ _ _ := trivial
  operand _ _ _ := trivial
  inversion _ _ := trivial
  comparison _ _ := trivial
  links _ _ := trivial
  factor _ _ := trivial
  atom _ _ := trivial
  parenthesized _ _ := trivial
  bracketed _ _ := trivial
  sequence _ _ _ := trivial
  clauses _ _ := trivial
  clause _ _ := trivial
  filters _ _ := trivial

/-- With any allowance of steps, the parsers read phrases of their symbols. -/
theorem soundAt (n : Nat) : SoundAt n := by
  induction n with
  | zero => exact soundAt_zero
  | succ n ih =>
    exact {
      expr := takes_expr ih
      row := takes_row ih
      rowRest := takes_rowRest ih
      operand := takes_operand ih
      inversion := takes_inversion ih
      comparison := takes_comparison ih
      links := takes_links ih
      factor := takes_factor ih
      atom := takes_atom ih
      parenthesized := takes_parenthesized ih
      bracketed := takes_bracketed ih
      sequence := takes_sequence ih
      clauses := takes_clauses ih
      clause := takes_clause ih
      filters := takes_filters ih }

end Parser

end Waypoints
