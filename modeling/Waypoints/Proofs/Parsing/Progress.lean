import Waypoints.Proofs.Parsing.Positions
/-!
# Every token makes up for twenty calls

A parser calls others before it looks at a token, but no more of them than its height says, which
is at most fourteen; and unless it is a loop, it reads a token. So with an allowance of twenty steps
for each token ahead, and its height, it does not run out of steps (`Lasts`). The allowance of the
whole text is enough for every parser at every place of it (`Parser.lastsAt`).
-/

set_option autoImplicit false
set_option relaxedAutoImplicit false

namespace Waypoints

namespace Parser

open StateT (ensures_bind ensures_get ensures_ite ensures_pure)

variable {α β : Type} {n height height₁ height₂ least least₁ least₂ : Nat}

/-- With twenty steps for each token ahead and `height` more, a parser does not run out of steps;
and what it reads has at least `least` tokens. -/
def Lasts (steps height least : Nat) (p : Parser α) : Prop :=
  ∀ c : Cursor, 20 * c.ahead.length + height ≤ steps →
    p.Ensures c (fun _ c' ↦ c'.ahead.length + least ≤ c.ahead.length) (·.fault ≠ .stalled)

/-! ### Steps -/

theorem length_advance {c : Cursor} {t : Token} (h : c.peek? = some t) :
    c.advance.ahead.length + 1 = c.ahead.length := by
  have hlength := congrArg List.length (Cursor.tokens_eq_cons h)
  simp only [Cursor.tokens, List.length_cons, List.length_map] at hlength
  exact hlength.symm

theorem lasts_pure (a : α) : Lasts n height 0 (pure a : Parser α) :=
  fun _ _ ↦ le_rfl

theorem lasts_refuse {fault : ParseFault} (h : fault ≠ .stalled) :
    Lasts n height least (refuse fault : Parser α) :=
  fun _ _ ↦ h

/-- An allowance of no steps is not enough for any height. -/
theorem lasts_zero (p : Parser α) (h : 0 < height) : Lasts 0 height least p :=
  fun _ hc ↦ absurd hc (by omega)

/-- A step more makes up for a call. -/
theorem Lasts.call {p : Parser α} (h : Lasts n height least p) :
    Lasts (n + 1) (height + 1) least p :=
  fun c hc ↦ h c (by omega)

theorem Lasts.mono {p : Parser α} (h : Lasts n height₁ least₁ p) (hheight : height₁ ≤ height)
    (hleast : least ≤ least₁) : Lasts n height least p :=
  fun c hc ↦ (h c (by omega)).mono (fun _ _ hlength ↦ by omega) fun _ hfault ↦ hfault

/-- What comes after some tokens may be higher by twenty for each of them. -/
theorem Lasts.bind {p : Parser α} {f : α → Parser β} (hp : Lasts n height₁ least₁ p)
    (hheight : height₁ ≤ height)
    (hf : ∀ a, Lasts n (height + 20 * least₁) (least - least₁) (f a)) :
    Lasts n height least (p >>= f) := by
  intro c hc
  rw [ensures_bind]
  refine (hp c (by omega)).mono (fun a c₁ hlength ↦ ?_) fun _ hfault ↦ hfault
  exact (hf a c₁ (by omega)).mono (fun _ _ hlength' ↦ by omega) fun _ hfault ↦ hfault

theorem Lasts.map {p : Parser α} (hp : Lasts n height least p) (f : α → β) :
    Lasts n height least (do return f (← p)) := by
  refine hp.bind le_rfl fun a ↦ ?_
  rw [Nat.sub_self]
  exact lasts_pure _

/-- What is of some kind is a token, if the end is not. -/
theorem exists_peek?_of_kind {kind : Option Token → Option β} (hend : kind none = none)
    {c : Cursor} {b : β} (h : kind c.peek? = some b) : ∃ t, c.peek? = some t := by
  rw [← Option.ne_none_iff_exists']
  intro hpeek
  rw [hpeek, hend] at h
  cases h

theorem lasts_take?_bind {kind : Option Token → Option β} {f : Option β → Parser α}
    (hend : kind none = none) (hnone : Lasts n height least (f none))
    (hsome : ∀ b, Lasts n (height + 20) (least - 1) (f (some b))) :
    Lasts n height least (take? kind >>= f) := by
  intro c hc
  rw [take?, ensures_bind, ensures_bind, ensures_peek?]
  cases hkind : kind c.peek? with
  | none => exact hnone c hc
  | some b =>
    obtain ⟨t, ht⟩ := exists_peek?_of_kind hend hkind
    have hlength := length_advance ht
    exact (hsome b c.advance (by omega)).mono (fun _ _ _ ↦ by omega) fun _ hfault ↦ hfault

theorem lasts_eatThen (m : Mark) {p q : Parser α} (hp : Lasts n (height + 20) (least - 1) p)
    (hq : Lasts n height least q) : Lasts n height least (do if ← eat m then p else q) := by
  intro c hc
  rw [ensures_bind, ensures_eat]
  split
  · next hpeek =>
    have hlength := length_advance hpeek
    exact (hp c.advance (by omega)).mono (fun _ _ _ ↦ by omega) fun _ hfault ↦ hfault
  · exact hq c hc

theorem lasts_expect (m : Mark) : Lasts n height 1 (expect m) := by
  intro c hc
  rw [ensures_expect]
  split
  · next hpeek => exact (length_advance hpeek).le
  · exact nofun

theorem lasts_atomWord?_bind {f : Option String → Parser α} (hnone : Lasts n height least (f none))
    (hsome : ∀ word, Lasts n (height + 20) (least - 1) (f (some word))) :
    Lasts n height least (atomWord? >>= f) := by
  rw [atomWord?, bind_assoc]
  refine lasts_take?_bind rfl (by rwa [pure_bind]) fun word c hc ↦ ?_
  rw [bind_assoc, ensures_bind, ensures_peek?]
  split
  · exact ParseFault.noConfusion
  · exact hsome word c hc

theorem lasts_loopVar : Lasts n height 1 loopVar := by
  intro c hc
  have hvariable (found : Option Token) : ParseFault.expectedVariable found ≠ .stalled :=
    ParseFault.noConfusion
  rw [loopVar, ensures_bind, ensures_peek?, ensures_bind, ensures_advance]
  rcases hpeek : c.peek? with _ | value | word | mark
  · exact hvariable _
  · exact hvariable _
  · dsimp only
    rw [ensures_ite]
    split
    · exact ParseFault.noConfusion
    · exact (length_advance hpeek).le
  · exact hvariable _

theorem lasts_descend : Lasts n height 0 descend := by
  intro c hc
  rw [ensures_descend]
  split
  · exact nofun
  · exact le_rfl

theorem Lasts.nested {p : Parser α} (hp : Lasts n height least p) :
    Lasts n height least (nested p) := by
  intro c hc
  rw [ensures_nested]
  split
  · exact nofun
  · exact hp (c.withDepth (c.depth + 1)) hc

theorem Lasts.closing {p : Parser α} (hp : Lasts n height least p) :
    Lasts n height least (closing p) := by
  intro c hc
  rw [Parser.closing, ensures_bind, ensures_get, ensures_bind]
  exact hp c hc

/-! ### The productions -/

/-- The parsers with an allowance of so many steps do not run out of them. -/
def LastsAt (steps : Nat) : Prop :=
  Indexed.EachReader fun height least p _ ↦ Lasts steps height least (p steps)

theorem lastsAt_zero : LastsAt 0 where
  expr := lasts_zero _ (by decide)
  conditional := lasts_zero _ (by decide)
  row r := lasts_zero _ (Nat.lt_of_lt_of_le (by decide) (four_le_rowHeight r))
  rowRest _ _ := lasts_zero _ (by decide)
  operand r :=
    lasts_zero _ (Nat.sub_pos_of_lt (Nat.lt_of_lt_of_le (by decide) (four_le_rowHeight r)))
  inversion := lasts_zero _ (by decide)
  comparison := lasts_zero _ (by decide)
  links := lasts_zero _ (by decide)
  factor := lasts_zero _ (by decide)
  power := lasts_zero _ (by decide)
  atom := lasts_zero _ (by decide)
  parenthesized := lasts_zero _ (by decide)
  bracketed := lasts_zero _ (by decide)
  sequence _ := lasts_zero _ (by decide)
  clauses := lasts_zero _ (by decide)
  clause := lasts_zero _ (by decide)
  filters := lasts_zero _ (by decide)

section Productions

theorem lasts_conditional (hrow : Lasts n 12 1 (row n .disjunction))
    (hexpr : Lasts n 13 1 (expr n)) : Lasts n 12 1 (conditional n) := by
  refine hrow.bind le_rfl fun value ↦ lasts_eatThen _ ?_ (lasts_pure _)
  refine hrow.bind (by decide) fun condition ↦ (lasts_expect _).bind le_rfl fun _ ↦ ?_
  exact (hexpr.map _).mono (by decide) (by decide)

theorem lasts_operand (ih : LastsAt n) (r : Row) :
    Lasts (n + 1) (rowHeight r - 1) 1 (operand (n + 1) r) := by
  cases r with
  | disjunction => exact (ih.row .conjunction).call
  | conjunction => exact ih.inversion.call
  | sum => exact (ih.row .term).call
  | term => exact ih.factor.call

theorem lasts_row (ih : LastsAt n) (r : Row) : Lasts (n + 1) (rowHeight r) 1 (row (n + 1) r) := by
  have hheight := four_le_rowHeight r
  have hrow : Lasts n (rowHeight r - 1) 1 (do
      let first ← operand n r
      closing (rowRest n r first)) :=
    (ih.operand r).bind le_rfl fun first ↦ (ih.rowRest r first).closing.mono (by omega) le_rfl
  rw [row_succ]
  exact hrow.call.mono (by omega) le_rfl

theorem lasts_rowRest (ih : LastsAt n) (r : Row) (lhs : Expr) :
    Lasts (n + 1) 1 0 (rowRest (n + 1) r lhs) := by
  have hheight := rowHeight_le r
  rw [rowRest_succ]
  refine Lasts.call (lasts_take?_bind rfl (lasts_pure _) fun join ↦ ?_)
  refine lasts_descend.bind le_rfl fun _ ↦ (ih.operand r).bind (by omega) fun rhs ↦ ?_
  exact (ih.rowRest r _).mono (by omega) le_rfl

theorem lasts_inversion (ih : LastsAt n) : Lasts (n + 1) 8 1 (inversion (n + 1)) := by
  rw [Parser.inversion]
  exact (lasts_eatThen _ (ih.inversion.nested.map _ |>.mono (by decide) (by decide))
    ih.comparison).call

theorem lasts_comparison (ih : LastsAt n) : Lasts (n + 1) 7 1 (comparison (n + 1)) := by
  rw [Parser.comparison]
  refine Lasts.call ((ih.row .sum).bind le_rfl fun first ↦ ih.links.bind (by decide) fun links ↦ ?_)
  cases links <;> exact lasts_pure _

theorem lasts_links (ih : LastsAt n) : Lasts (n + 1) 1 0 (links (n + 1)) := by
  rw [links_succ]
  refine Lasts.call (lasts_take?_bind rfl (lasts_pure _) fun op ↦ ?_)
  exact (ih.row .sum).bind (by decide) fun operand ↦ (ih.links.map _).mono (by decide) le_rfl

theorem lasts_factor (ih : LastsAt n) : Lasts (n + 1) 2 1 (factor (n + 1)) := by
  rw [factor_succ_eq]
  refine Lasts.call (lasts_take?_bind rfl ih.power fun sign ↦ ?_)
  exact (ih.factor.nested.map _).mono (by decide) (by decide)

theorem lasts_power (hatom : Lasts n 1 1 (atom n)) (hfactor : Lasts n 2 1 (factor n)) :
    Lasts n 1 1 (power n) := by
  refine hatom.bind le_rfl fun base ↦ lasts_eatThen _ ?_ (lasts_pure _)
  exact (hfactor.nested.map _).mono (by decide) (by decide)

theorem lasts_atom (ih : LastsAt n) : Lasts (n + 1) 1 1 (atom (n + 1)) := by
  rw [Parser.atom_succ]
  refine Lasts.call (lasts_take?_bind rfl (lasts_atomWord?_bind ?_ fun word ↦ ?_)
    fun value ↦ lasts_pure _)
  · refine lasts_eatThen _ (ih.parenthesized.mono (by decide) (by decide)) ?_
    exact lasts_eatThen _ (ih.bracketed.mono (by decide) (by decide)) fun _ _ ↦ nofun
  · dsimp only
    split
    · refine (lasts_expect _).bind le_rfl fun _ ↦ (ih.sequence _).bind (by decide) fun args ↦ ?_
      split
      · exact lasts_refuse nofun
      · exact lasts_pure _
    · exact lasts_pure _

theorem lasts_parenthesized (ih : LastsAt n) :
    Lasts (n + 1) 14 1 (parenthesized (n + 1)) := by
  rw [Parser.parenthesized]
  refine Lasts.call (lasts_eatThen _ (lasts_pure _) (ih.expr.bind le_rfl fun first ↦ ?_))
  refine lasts_eatThen _ (lasts_pure _) ((lasts_expect _).bind le_rfl fun _ ↦ ?_)
  exact ((ih.sequence _).map _).mono (by decide) (by decide)

theorem lasts_bracketed (ih : LastsAt n) : Lasts (n + 1) 14 1 (bracketed (n + 1)) := by
  rw [Parser.bracketed]
  refine Lasts.call (lasts_eatThen _ (lasts_pure _) (ih.expr.bind le_rfl fun first ↦ ?_))
  refine ih.clauses.bind (by decide) fun clauses ↦ ?_
  cases clauses with
  | nil =>
    refine lasts_eatThen _ ((ih.sequence _).map _ |>.mono (by decide) (by decide)) ?_
    exact (lasts_expect _).bind le_rfl fun _ ↦ lasts_pure _
  | cons clause more => exact (lasts_expect _).bind le_rfl fun _ ↦ lasts_pure _

theorem lasts_sequence (ih : LastsAt n) (close : Mark) :
    Lasts (n + 1) 14 1 (sequence (n + 1) close) := by
  rw [Parser.sequence]
  refine Lasts.call (lasts_eatThen _ (lasts_pure _) (ih.expr.bind le_rfl fun item ↦ ?_))
  refine lasts_eatThen _ ((ih.sequence _).map _ |>.mono (by decide) (by decide)) ?_
  exact (lasts_expect _).bind le_rfl fun _ ↦ lasts_pure _

theorem lasts_clauses (ih : LastsAt n) : Lasts (n + 1) 1 0 (clauses (n + 1)) := by
  rw [Parser.clauses]
  refine Lasts.call (lasts_eatThen _ (ih.clause.bind (by decide) fun first ↦ ?_) (lasts_pure _))
  exact (ih.clauses.map _).mono (by decide) le_rfl

theorem lasts_clause (ih : LastsAt n) : Lasts (n + 1) 1 1 (clause (n + 1)) := by
  rw [clause_succ]
  refine Lasts.call (lasts_loopVar.bind le_rfl fun loopVar ↦ ?_)
  refine (lasts_expect _).bind le_rfl fun _ ↦ (ih.row .disjunction).bind (by decide) fun items ↦ ?_
  exact (ih.filters.map _).mono (by decide) le_rfl

theorem lasts_filters (ih : LastsAt n) : Lasts (n + 1) 1 0 (filters (n + 1)) := by
  rw [Parser.filters]
  refine Lasts.call (lasts_eatThen _ ?_ (lasts_pure _))
  refine (ih.row .disjunction).bind (by decide) fun condition ↦ ?_
  exact (ih.filters.map _).mono (by decide) le_rfl

/-- With any allowance of steps, a parser whose height fits into it does not run out of them. -/
theorem lastsAt (n : Nat) : LastsAt n := by
  induction n with
  | zero => exact lastsAt_zero
  | succ n ih =>
    have hrow := lasts_row ih
    have hexpr : Lasts (n + 1) 13 1 (expr (n + 1)) := by
      rw [expr_succ]
      exact ih.conditional.nested.call
    exact {
      expr := hexpr
      conditional := lasts_conditional (hrow .disjunction) hexpr
      row := hrow
      rowRest := lasts_rowRest ih
      operand := lasts_operand ih
      inversion := lasts_inversion ih
      comparison := lasts_comparison ih
      links := lasts_links ih
      factor := lasts_factor ih
      power := lasts_power (lasts_atom ih) (lasts_factor ih)
      atom := lasts_atom ih
      parenthesized := lasts_parenthesized ih
      bracketed := lasts_bracketed ih
      sequence := lasts_sequence ih
      clauses := lasts_clauses ih
      clause := lasts_clause ih
      filters := lasts_filters ih }

end Productions

end Parser

end Waypoints
