import Waypoints.Proofs.Parsing.Ensures
/-!
# The steps that the grammar is read in

Every parser of the grammar is a sequence of a few steps: the next token is passed over if it is of
some kind, or it is required, or the text is refused there; and levels are opened and closed. The
equations `rowRest_succ` to `clauses_succ` write the productions this way. `Steps.holds` draws the
conclusion: what holds of the steps, and of a sequence if it holds of its parts, holds of the
parsers of the whole grammar.
-/

set_option autoImplicit false
set_option relaxedAutoImplicit false

namespace Waypoints

/-- The value of the number at a place. -/
def Token.numberAt? : Option Token → Option Float
  | some (number value) => some value
  | _ => none

/-- The word of the name at a place. -/
def Token.nameAt? : Option Token → Option String
  | some (name word) => some word
  | _ => none

namespace Parser

/-! ### Steps -/

/-- Passes over the next token if it is of some kind. -/
def take? {β : Type} (kind : Option Token → Option β) : Parser (Option β) := do
  match kind (← peek?) with
  | none => return none
  | some b =>
    advance
    return some b

/-- Refuses the next token. -/
def refuseNext {α : Type} : Parser α := do
  refuse (.unexpected (← peek?))

/-- Closes the levels that a parser leaves open. -/
def closing {α : Type} (p : Parser α) : Parser α := do
  let depth := (← get).depth
  let a ← p
  modify fun c ↦ { c with depth := depth }
  return a

/-- Passes over a name, which is `range` or has no parenthesis after it. -/
def atomWord? : Parser (Option String) := do
  match ← take? Token.nameAt? with
  | none => return none
  | some word =>
    if word ≠ "range" ∧ (← peek?) = some (.mark .parenOpen) then
      refuse (.notCallable word)
    else
      return some word

/-- Passes over the variable of a clause. -/
def loopVar : Parser String := do
  let found ← peek?
  advance
  match found with
  | some (.name loopVar) =>
    if reservedNames.contains loopVar then
      refuse (.reservedName loopVar)
    else
      return loopVar
  | _ => refuse (.expectedVariable found)

/-- Passes over `for` and the variable after it, if `for` follows. -/
def forVar? : Parser (Option String) := do
  if ← eat .kwFor then
    return some (← loopVar)
  else
    return none

/-- Reads a clause if `for` follows. -/
def forClause (n : Nat) : Parser (Option Clause) := do
  if ← eat .kwFor then
    return some (← clause n)
  else
    return none

/-! ### The productions in steps -/

theorem take?_bind_apply {β γ : Type} (kind : Option Token → Option β) (f : Option β → Parser γ)
    (c : Cursor) :
    (take? kind >>= f) c = match kind c.peek? with
      | none => f none c
      | some b => f (some b) c.advance := by
  have htake : take? kind c = match kind c.peek? with
      | none => .ok (none, c)
      | some b => .ok (some b, c.advance) := by
    change (match kind c.peek? with
      | none => return none
      | some b => (do advance; return some b : Parser (Option β))) c = _
    cases kind c.peek? <;> rfl
  change (take? kind c).bind _ = _
  rw [htake]
  cases kind c.peek? <;> rfl

theorem eat_bind_apply {γ : Type} (m : Mark) (f : Bool → Parser γ) (c : Cursor) :
    (eat m >>= f) c = if c.peek? = some (.mark m) then f true c.advance else f false c := by
  have heat : eat m c =
      if c.peek? = some (.mark m) then .ok (true, c.advance) else .ok (false, c) := by
    change (if c.peek? = some (.mark m) then (do advance; return true : Parser Bool)
      else return false) c = _
    split <;> rfl
  change (eat m c).bind _ = _
  rw [heat]
  split <;> rfl

theorem advance_bind_apply {γ : Type} (f : Unit → Parser γ) (c : Cursor) :
    (advance >>= f) c = f () c.advance := rfl

theorem peek?_bind_apply {γ : Type} (f : Option Token → Parser γ) (c : Cursor) :
    (peek? >>= f) c = f c.peek? c := rfl

theorem row_succ (n : Nat) (r : Row) : row (n + 1) r = (do
    let first ← operand n r
    closing (rowRest n r first)) := by
  rw [row]
  rfl

theorem rowRest_succ (n : Nat) (r : Row) (lhs : Expr) : rowRest (n + 1) r lhs = (do
    match ← take? r.joinAt? with
    | none => return lhs
    | some join =>
      descend
      let rhs ← operand n r
      rowRest n r (join lhs rhs)) := by
  funext c
  rw [rowRest, take?_bind_apply, peek?_bind_apply]
  cases r.joinAt? c.peek? <;> rfl

theorem links_succ (n : Nat) : links (n + 1) = (do
    match ← take? CompareOp.at? with
    | none => return []
    | some op =>
      let operand ← row n .sum
      return .mk op operand :: (← links n)) := by
  funext c
  rw [links, take?_bind_apply, peek?_bind_apply]
  cases CompareOp.at? c.peek? <;> rfl

theorem factor_succ (n : Nat) : factor (n + 1) = (do
    match ← take? UnaryOp.signAt? with
    | some op => return .unary op (← nested (factor n))
    | none =>
      let base ← atom n
      if ← eat .starStar then
        return .binary .pow base (← nested (factor n))
      else
        return base) := by
  funext c
  rw [factor, take?_bind_apply, peek?_bind_apply]
  cases UnaryOp.signAt? c.peek? <;> rfl

theorem atom_succ (n : Nat) : atom (n + 1) = (do
    match ← take? Token.numberAt? with
    | some value => return .number value
    | none =>
      match ← atomWord? with
      | some word =>
        if word = "range" then
          expect .parenOpen
          let args ← sequence n .parenClose
          if args.isEmpty || 3 < args.length then
            refuse (.rangeArity args.length)
          else
            return .range args
        else
          return .name word
      | none =>
        if ← eat .parenOpen then
          parenthesized n
        else if ← eat .bracketOpen then
          bracketed n
        else
          refuseNext) := by
  funext c
  obtain ⟨ahead, stop, depth⟩ := c
  rw [atom]
  rcases ahead with _ | ⟨⟨t, offset⟩, ahead⟩
  · rfl
  · cases t with
    | number value => rfl
    | name word =>
      rw [take?_bind_apply, peek?_bind_apply, atomWord?]
      dsimp only [Token.numberAt?, Cursor.peek?, List.head?_cons, Option.map_some]
      rw [bind_assoc, take?_bind_apply]
      dsimp only [Token.nameAt?, Cursor.peek?, List.head?_cons, Option.map_some]
      rw [bind_assoc, peek?_bind_apply, advance_bind_apply]
      by_cases hrange : word = "range"
      · rw [if_pos hrange, if_neg fun h ↦ h.1 hrange, pure_bind]
        dsimp only
        rw [if_pos hrange]
      · rw [if_neg hrange, peek?_bind_apply]
        split
        · next hparen =>
          rw [if_pos ⟨hrange, hparen⟩]
          rfl
        · next hparen =>
          rw [if_neg fun h ↦ hparen h.2, pure_bind]
          dsimp only
          rw [if_neg hrange]
    | mark m => cases m <;> rfl

theorem clause_succ (n : Nat) : clause (n + 1) = (do
    let loopVar ← loopVar
    expect .kwIn
    let items ← row n .disjunction
    return .mk loopVar items (← filters n)) := by
  rw [clause, loopVar, bind_assoc]
  congr 1
  funext found
  rw [bind_assoc]
  congr 1
  funext _
  rcases found with _ | (value | word | mark)
  · rfl
  · rfl
  · dsimp only
    split <;> rfl
  · rfl

theorem forClause_succ (n : Nat) : forClause (n + 1) = (do
    match ← forVar? with
    | none => return none
    | some loopVar =>
      expect .kwIn
      let items ← row n .disjunction
      return some (.mk loopVar items (← filters n))) := by
  funext c
  rw [forClause, forVar?, bind_assoc, eat_bind_apply, eat_bind_apply]
  split
  · simp only [if_true, clause_succ, bind_assoc, pure_bind]
  · rfl

theorem clauses_succ (n : Nat) : clauses (n + 1) = (do
    match ← forClause n with
    | none => return []
    | some first => return first :: (← clauses n)) := by
  rw [clauses, forClause, bind_assoc]
  congr 1
  funext b
  cases b
  · rfl
  · simp only [if_true, bind_assoc, pure_bind]

/-! ### What holds of the steps -/

/-- A property of parsers holds of every step and of every sequence of parts it holds of. -/
structure Steps (P : {α : Type} → Parser α → Prop) : Prop where
  pure {α : Type} (a : α) : P (Pure.pure a : Parser α)
  bind {α β : Type} {p : Parser α} {f : α → Parser β} : P p → (∀ a, P (f a)) → P (p >>= f)
  take? {β : Type} (kind : Option Token → Option β) : P (take? kind)
  eat (m : Mark) : P (eat m)
  expect (m : Mark) : P (expect m)
  expectEnd : P expectEnd
  refuseNext {α : Type} : P (refuseNext : Parser α)
  atomWord? : P atomWord?
  forVar? : P forVar?
  rangeArity {α : Type} (count : Nat) : P (refuse (.rangeArity count) : Parser α)
  stalled {α : Type} : P (refuse .stalled : Parser α)
  descend : P descend
  nested {α : Type} {p : Parser α} : P p → P (nested p)
  closing {α : Type} {p : Parser α} : P p → P (closing p)

/-- A property holds of the parsers with an allowance of `n` steps. -/
structure HoldsAt (P : {α : Type} → Parser α → Prop) (n : Nat) : Prop where
  expr : P (expr n)
  row (r : Row) : P (row n r)
  rowRest (r : Row) (lhs : Expr) : P (rowRest n r lhs)
  operand (r : Row) : P (operand n r)
  inversion : P (inversion n)
  comparison : P (comparison n)
  links : P (links n)
  factor : P (factor n)
  atom : P (atom n)
  parenthesized : P (parenthesized n)
  bracketed : P (bracketed n)
  sequence (close : Mark) : P (sequence n close)
  clauses : P (clauses n)
  forClause : P (forClause n)
  filters : P (filters n)

namespace Steps

variable {P : {α : Type} → Parser α → Prop} {α : Type} {n : Nat}

theorem ite (p q : Parser α) {b : Prop} [Decidable b] (hp : P p) (hq : P q) :
    P (if b then p else q) := by
  split
  · exact hp
  · exact hq

theorem eatThen (h : Steps P) (m : Mark) {p q : Parser α} (hp : P p) (hq : P q) :
    P (do if ← Parser.eat m then p else q) :=
  h.bind (h.eat m) fun _ ↦ ite _ _ hp hq

theorem map (h : Steps P) {β : Type} {p : Parser α} (hp : P p) (f : α → β) :
    P (do return f (← p)) :=
  h.bind hp fun _ ↦ h.pure _

theorem zero (h : Steps P) : HoldsAt P 0 where
  expr := h.stalled
  row _ := h.stalled
  rowRest _ _ := h.stalled
  operand _ := h.stalled
  inversion := h.stalled
  comparison := h.stalled
  links := h.stalled
  factor := h.stalled
  atom := h.stalled
  parenthesized := h.stalled
  bracketed := h.stalled
  sequence _ := h.stalled
  clauses := h.stalled
  forClause := h.eatThen _ (h.map h.stalled _) (h.pure _)
  filters := h.stalled

theorem expr_succ (h : Steps P) (ih : HoldsAt P n) : P (Parser.expr (n + 1)) := by
  rw [Parser.expr]
  refine h.nested (h.bind (ih.row _) fun value ↦ h.eatThen _ ?_ (h.pure _))
  exact h.bind (ih.row _) fun condition ↦ h.bind (h.expect _) fun _ ↦ h.map ih.expr _

theorem operand_succ (ih : HoldsAt P n) (r : Row) : P (operand (n + 1) r) := by
  cases r with
  | disjunction => exact ih.row _
  | conjunction => exact ih.inversion
  | sum => exact ih.row _
  | term => exact ih.factor

theorem atom_succ (h : Steps P) (ih : HoldsAt P n) : P (Parser.atom (n + 1)) := by
  rw [Parser.atom_succ]
  refine h.bind (h.take? _) fun value ↦ ?_
  cases value with
  | some value => exact h.pure _
  | none =>
    refine h.bind h.atomWord? fun word ↦ ?_
    cases word with
    | some word =>
      refine ite _ _ (h.bind (h.expect _) fun _ ↦ h.bind (ih.sequence _) fun args ↦ ?_) (h.pure _)
      exact ite _ _ (h.rangeArity _) (h.pure _)
    | none => exact h.eatThen _ ih.parenthesized (h.eatThen _ ih.bracketed h.refuseNext)

theorem bracketed_succ (h : Steps P) (ih : HoldsAt P n) : P (Parser.bracketed (n + 1)) := by
  rw [Parser.bracketed]
  refine h.eatThen _ (h.pure _) (h.bind ih.expr fun first ↦ h.bind ih.clauses fun clauses ↦ ?_)
  cases clauses with
  | nil =>
    exact h.eatThen _ (h.map (ih.sequence _) _) (h.bind (h.expect _) fun _ ↦ h.pure _)
  | cons clause more => exact h.bind (h.expect _) fun _ ↦ h.pure _

theorem succ (h : Steps P) (ih : HoldsAt P n) : HoldsAt P (n + 1) where
  expr := h.expr_succ ih
  row r := by
    rw [row_succ]
    exact h.bind (ih.operand r) fun first ↦ h.closing (ih.rowRest r first)
  rowRest r lhs := by
    rw [rowRest_succ]
    refine h.bind (h.take? _) fun join ↦ ?_
    cases join with
    | none => exact h.pure _
    | some join =>
      exact h.bind h.descend fun _ ↦ h.bind (ih.operand r) fun rhs ↦ ih.rowRest r _
  operand := operand_succ ih
  inversion := by
    rw [Parser.inversion]
    exact h.eatThen _ (h.map (h.nested ih.inversion) _) ih.comparison
  comparison := by
    rw [Parser.comparison]
    refine h.bind (ih.row _) fun first ↦ h.bind ih.links fun links ↦ ?_
    cases links <;> exact h.pure _
  links := by
    rw [links_succ]
    refine h.bind (h.take? _) fun op ↦ ?_
    cases op with
    | none => exact h.pure _
    | some op => exact h.bind (ih.row _) fun operand ↦ h.map ih.links _
  factor := by
    rw [factor_succ]
    refine h.bind (h.take? _) fun sign ↦ ?_
    cases sign with
    | some sign => exact h.map (h.nested ih.factor) _
    | none =>
      exact h.bind ih.atom fun base ↦ h.eatThen _ (h.map (h.nested ih.factor) _) (h.pure _)
  atom := h.atom_succ ih
  parenthesized := by
    rw [Parser.parenthesized]
    refine h.eatThen _ (h.pure _) (h.bind ih.expr fun first ↦ h.eatThen _ (h.pure _) ?_)
    exact h.bind (h.expect _) fun _ ↦ h.map (ih.sequence _) _
  bracketed := h.bracketed_succ ih
  sequence close := by
    rw [Parser.sequence]
    refine h.eatThen _ (h.pure _) (h.bind ih.expr fun item ↦ ?_)
    exact h.eatThen _ (h.map (ih.sequence _) _) (h.bind (h.expect _) fun _ ↦ h.pure _)
  clauses := by
    rw [clauses_succ]
    refine h.bind ih.forClause fun first ↦ ?_
    cases first with
    | none => exact h.pure _
    | some first => exact h.map ih.clauses _
  forClause := by
    rw [forClause_succ]
    refine h.bind h.forVar? fun loopVar ↦ ?_
    cases loopVar with
    | none => exact h.pure _
    | some loopVar =>
      exact h.bind (h.expect _) fun _ ↦ h.bind (ih.row _) fun items ↦ h.map ih.filters _
  filters := by
    rw [Parser.filters]
    exact h.eatThen _ (h.bind (ih.row _) fun condition ↦ h.map ih.filters _) (h.pure _)

/-- What holds of the steps holds of the parsers of the grammar, with any allowance. -/
theorem holds (h : Steps P) (n : Nat) : HoldsAt P n := by
  induction n with
  | zero => exact h.zero
  | succ n ih => exact h.succ ih

end Steps

end Parser

end Waypoints
