import Waypoints.Proofs.Parsing.Soundness
import Waypoints.Proofs.Parsing.Steps
/-!
# Levels are closed again

A parser is `Balanced` if there are as many open levels after what it reads as before it. Under the
limit this is part of what `soundAt` says. Where so many levels are open that no parser may open one
more, a parser that reads something has opened none; this is `Flat`, and it holds of the steps of
the grammar one by one, of those that open a level because they are refused. So the parsers of the
grammar are balanced wherever they start (`balancedAt`).
-/

set_option autoImplicit false
set_option relaxedAutoImplicit false

namespace Waypoints

namespace Parser

open StateT (ensures_bind ensures_get ensures_ite ensures_pure)

variable {α β : Type}

/-! ### Balanced steps -/

/-- After what a parser reads, as many levels are open as before it. -/
def Balanced (p : Parser α) : Prop :=
  ∀ c a c', p c = .ok (a, c') → c'.depth = c.depth

theorem balanced_iff_ensures {p : Parser α} :
    Balanced p ↔ ∀ c, p.Ensures c (fun _ c' ↦ c'.depth = c.depth) fun _ ↦ True := by
  refine forall_congr' fun c ↦ ?_
  unfold StateT.Ensures
  rcases hp : p c with e | ⟨a, c'⟩
  · simp
  · simp

theorem Balanced.bind {p : Parser α} {f : α → Parser β} (hp : Balanced p)
    (hf : ∀ a, Balanced (f a)) : Balanced (p >>= f) := by
  rw [balanced_iff_ensures] at hp ⊢
  intro c
  rw [ensures_bind]
  refine (hp c).mono (fun a c₁ hdepth ↦ ?_) fun _ _ ↦ trivial
  refine (balanced_iff_ensures.1 (hf a) c₁).mono (fun b c₂ hdepth' ↦ ?_) fun _ _ ↦ trivial
  exact hdepth'.trans hdepth

theorem balanced_pure (a : α) : Balanced (pure a : Parser α) :=
  balanced_iff_ensures.2 fun _ ↦ rfl

theorem balanced_ite {p q : Parser α} {b : Prop} [Decidable b] (hp : Balanced p)
    (hq : Balanced q) : Balanced (if b then p else q) := by
  split
  · exact hp
  · exact hq

theorem balanced_refuse (fault : ParseFault) : Balanced (refuse fault : Parser α) :=
  balanced_iff_ensures.2 fun _ ↦ trivial

theorem balanced_peek? : Balanced peek? :=
  balanced_iff_ensures.2 fun _ ↦ rfl

theorem balanced_advance : Balanced advance :=
  balanced_iff_ensures.2 fun _ ↦ rfl

theorem balanced_take? (kind : Option Token → Option β) : Balanced (take? kind) := by
  refine balanced_peek?.bind fun found ↦ ?_
  cases kind found with
  | none => exact balanced_pure _
  | some b => exact balanced_advance.bind fun _ ↦ balanced_pure _

theorem balanced_eat (m : Mark) : Balanced (eat m) :=
  balanced_peek?.bind fun _ ↦
    balanced_ite (balanced_advance.bind fun _ ↦ balanced_pure _) (balanced_pure _)

theorem balanced_expect (m : Mark) : Balanced (expect m) :=
  (balanced_eat m).bind fun _ ↦
    balanced_ite (balanced_pure _) (balanced_peek?.bind fun _ ↦ balanced_refuse _)

theorem balanced_expectEnd : Balanced expectEnd := by
  refine balanced_peek?.bind fun found ↦ ?_
  cases found with
  | none => exact balanced_pure _
  | some token => exact balanced_refuse _

theorem balanced_atomWord? : Balanced atomWord? := by
  refine (balanced_take? _).bind fun word ↦ ?_
  cases word with
  | none => exact balanced_pure _
  | some word =>
    exact balanced_peek?.bind fun _ ↦ balanced_ite (balanced_refuse _) (balanced_pure _)

theorem balanced_loopVar : Balanced loopVar := by
  refine balanced_peek?.bind fun found ↦ balanced_advance.bind fun _ ↦ ?_
  rcases found with _ | (value | word | mark)
  · exact balanced_refuse _
  · exact balanced_refuse _
  · exact balanced_ite (balanced_refuse _) (balanced_pure _)
  · exact balanced_refuse _

/-- Whatever levels a parser leaves open, closing them restores the number before it. -/
theorem balanced_closing (p : Parser α) : Balanced (closing p) := by
  rw [balanced_iff_ensures]
  intro c
  rw [Parser.closing, ensures_bind, ensures_get, ensures_bind, StateT.Ensures]
  split <;> trivial

theorem Balanced.nested {p : Parser α} (hp : Balanced p) : Balanced (nested p) := by
  rw [balanced_iff_ensures] at hp ⊢
  intro c
  rw [ensures_nested]
  split
  · trivial
  · refine (hp _).mono (fun a c' hdepth ↦ ?_) fun _ _ ↦ trivial
    rw [Cursor.depth_withDepth] at hdepth ⊢
    omega

/-! ### At the limit -/

/-- Where a parser may open no level, there are as many levels open after what it reads. -/
def Flat (p : Parser α) : Prop :=
  ∀ c, maxNesting ≤ c.depth → p.Ensures c (fun _ c' ↦ c'.depth = c.depth) fun _ ↦ True

theorem Balanced.flat {p : Parser α} (h : Balanced p) : Flat p :=
  fun c _ ↦ balanced_iff_ensures.1 h c

theorem Flat.bind {p : Parser α} {f : α → Parser β} (hp : Flat p) (hf : ∀ a, Flat (f a)) :
    Flat (p >>= f) := by
  intro c hc
  rw [ensures_bind]
  refine (hp c hc).mono (fun a c₁ hdepth ↦ ?_) fun _ _ ↦ trivial
  refine (hf a c₁ (hc.trans hdepth.ge)).mono (fun b c₂ hdepth' ↦ ?_) fun _ _ ↦ trivial
  exact hdepth'.trans hdepth

/-- No level is opened at the limit. -/
theorem flat_descend : Flat descend := by
  intro c hc
  rw [ensures_descend, if_pos (Nat.lt_succ_of_le hc)]
  trivial

theorem flat_nested (p : Parser α) : Flat (nested p) := by
  intro c hc
  rw [ensures_nested, if_pos (Nat.lt_succ_of_le hc)]
  trivial

/-- At the limit, the steps of the grammar open no level. -/
theorem flat_steps : Steps Flat where
  pure a := (balanced_pure a).flat
  bind := Flat.bind
  take? kind := (balanced_take? kind).flat
  eat m := (balanced_eat m).flat
  expect m := (balanced_expect m).flat
  expectEnd := balanced_expectEnd.flat
  refuseNext := (balanced_peek?.bind fun _ ↦ balanced_refuse _).flat
  atomWord? := balanced_atomWord?.flat
  forVar? := ((balanced_eat _).bind fun _ ↦
    balanced_ite (balanced_loopVar.bind fun _ ↦ balanced_pure _) (balanced_pure _)).flat
  rangeArity _ := (balanced_refuse _).flat
  stalled := (balanced_refuse _).flat
  descend := flat_descend
  nested _ := flat_nested _
  closing _ := (balanced_closing _).flat

/-! ### Balanced parsers -/

/-- Under the limit a sound parser closes what it opens, and at the limit it opens nothing. -/
theorem Takes.balanced {p : Parser α} {R : List Token → α → Nat → Prop} (h : p.Takes R)
    (hflat : Flat p) : Balanced p := by
  rw [balanced_iff_ensures]
  intro c
  rcases le_total c.depth maxNesting with hc | hc
  · exact h.ensures hc fun _ _ _ _ hpass _ ↦ hpass.depth_eq
  · exact hflat c hc

/-- Reads an expression inside its own level. -/
def conditional (n : Nat) : Parser Expr := do
  let value ← row n .disjunction
  if ← eat .kwIf then
    let condition ← row n .disjunction
    expect .kwElse
    let otherwise ← expr n
    return .conditional value condition otherwise
  else
    return value

/-- An expression opens one level. -/
theorem expr_succ (n : Nat) : expr (n + 1) = nested (conditional n) := by
  rw [expr]
  rfl

/-- Reads an atom with its power. -/
def power (n : Nat) : Parser Expr := do
  let base ← atom n
  if ← eat .starStar then
    return .binary .pow base (← nested (factor n))
  else
    return base

/-- A factor is signed, or a power. -/
theorem factor_succ_eq (n : Nat) : factor (n + 1) = (do
    match ← take? UnaryOp.signAt? with
    | some op => return .unary op (← nested (factor n))
    | none => power n) :=
  factor_succ n

/-- The parsers with an allowance of `n` steps are balanced. -/
structure BalancedAt (n : Nat) : Prop where
  expr : Balanced (expr n)
  conditional : Balanced (conditional n)
  row (r : Row) : Balanced (row n r)
  operand (r : Row) : Balanced (operand n r)
  inversion : Balanced (inversion n)
  comparison : Balanced (comparison n)
  links : Balanced (links n)
  factor : Balanced (factor n)
  power : Balanced (power n)
  atom : Balanced (atom n)
  parenthesized : Balanced (parenthesized n)
  bracketed : Balanced (bracketed n)
  sequence (close : Mark) : Balanced (sequence n close)
  clauses : Balanced (clauses n)
  clause : Balanced (clause n)
  filters : Balanced (filters n)

theorem balanced_clause (n : Nat) : Balanced (clause n) := by
  cases n with
  | zero => exact balanced_refuse _
  | succ n =>
    have hrow := ((soundAt n).row .disjunction).balanced ((flat_steps.holds n).row _)
    have hfilters := (soundAt n).filters.balanced (flat_steps.holds n).filters
    rw [clause_succ]
    refine balanced_loopVar.bind fun loopVar ↦ (balanced_expect _).bind fun _ ↦ ?_
    exact hrow.bind fun items ↦ hfilters.bind fun filters ↦ balanced_pure _

/-- With any allowance of steps, the parsers of the grammar are balanced. -/
theorem balancedAt (n : Nat) : BalancedAt n := by
  have hsound := soundAt n
  have hflat := flat_steps.holds n
  have hrow (r : Row) : Balanced (row n r) := (hsound.row r).balanced (hflat.row r)
  have hexpr : Balanced (expr n) := hsound.expr.balanced hflat.expr
  have hfactor : Balanced (factor n) := hsound.factor.balanced hflat.factor
  have hatom : Balanced (atom n) := hsound.atom.balanced hflat.atom
  exact {
    expr := hexpr
    conditional := (hrow _).bind fun value ↦ (balanced_eat _).bind fun _ ↦
      balanced_ite ((hrow _).bind fun condition ↦ (balanced_expect _).bind fun _ ↦
        hexpr.bind fun otherwise ↦ balanced_pure _) (balanced_pure _)
    row := hrow
    operand r := (hsound.operand r).balanced (hflat.operand r)
    inversion := hsound.inversion.balanced hflat.inversion
    comparison := hsound.comparison.balanced hflat.comparison
    links := hsound.links.balanced hflat.links
    factor := hfactor
    power := hatom.bind fun base ↦ (balanced_eat _).bind fun _ ↦
      balanced_ite (hfactor.nested.bind fun exponent ↦ balanced_pure _) (balanced_pure _)
    atom := hatom
    parenthesized := hsound.parenthesized.balanced hflat.parenthesized
    bracketed := hsound.bracketed.balanced hflat.bracketed
    sequence close := (hsound.sequence close).balanced (hflat.sequence close)
    clauses := hsound.clauses.balanced hflat.clauses
    clause := balanced_clause n
    filters := hsound.filters.balanced hflat.filters }

end Parser

end Waypoints
