import Mathlib.Order.Bounds.Defs
import Waypoints.Proofs.Parsing.Nesting
/-!
# How deep expressions without comprehensions are

The tree of an expression is deeper than the levels that are open while it is read: the operators of
a row close theirs at its end, so that a row of tighter operators in front of it is not counted any
more, and a comparison, the base of a power and what stands before the `else` of a conditional open
none. `Phrase.low` bounds the depth of every phrase without `for` by its levels, and `tower` is as
deep as that for any number of levels. So the greatest depth of an accepted expression without
comprehensions is not the number of levels, but about twice its square (`Expr.depth_le_iff`,
`Expr.not_depth_le_maxNesting`).
-/

set_option autoImplicit false
set_option relaxedAutoImplicit false

namespace Waypoints

/-! ### Bounds -/

/-- The greatest depth of a factor with so many levels. -/
def factorLimit (levels : Nat) : Nat :=
  max 1 (2 * levels * (levels + 1))

theorem factorLimit_mono {m n : Nat} (h : m ≤ n) : factorLimit m ≤ factorLimit n :=
  max_le_max_left 1 (Nat.mul_le_mul (Nat.mul_le_mul_left 2 h) (Nat.succ_le_succ h))

theorem factorLimit_succ (n : Nat) : factorLimit (n + 1) = 2 * n * (n + 1) + (4 * n + 4) := by
  have hmul : 2 * (n + 1) * (n + 1 + 1) = 2 * n * (n + 1) + (4 * n + 4) := by ring
  rw [factorLimit, hmul]
  omega

/-- What one more level adds, if there is one already. -/
theorem factorLimit_add_four {n : Nat} (h : 1 ≤ n) :
    factorLimit n + (4 * n + 4) = factorLimit (n + 1) := by
  have hpos : 1 ≤ 2 * n * (n + 1) := Nat.mul_pos (by omega) (by omega)
  rw [factorLimit_succ, factorLimit, Nat.max_eq_right hpos]

/-- What one more level adds in any case. -/
theorem factorLimit_add_three (n : Nat) : factorLimit n + (4 * n + 3) ≤ factorLimit (n + 1) := by
  rw [factorLimit_succ, factorLimit]
  omega

/-- The greatest depth of an operand of a row. -/
def Row.limit : Row → Nat → Nat
  | .term, n => factorLimit n
  | .sum, n => factorLimit n + n
  | .conjunction, n => factorLimit n + (2 * n + 1)
  | .disjunction, n => factorLimit n + (3 * n + 1)

theorem Row.limit_mono (r : Row) {m n : Nat} (h : m ≤ n) : r.limit m ≤ r.limit n := by
  have hfactor := factorLimit_mono h
  cases r <;> simp only [limit] <;> omega

/-- How deep the tree of a phrase without `for` is at most. A factor is as deep as an atom with a
power, and each row adds its operators. -/
def Low : (s : Symbol) → s.Tree → Nat → Prop
  | .expr, e, n => e.depth + 2 ≤ factorLimit n
  | .row r, e, n => e.depth ≤ r.limit n + n
  | .rest r lhs, e, n => e.depth ≤ max lhs.depth (r.limit n) + n
  | .operand r, e, n => e.depth ≤ r.limit n
  | .inversion, e, n => e.depth ≤ Row.limit .conjunction n
  | .comparison, e, n => e.depth ≤ Row.limit .conjunction n
  | .links, links, n => ∀ l ∈ links, l.operand.depth ≤ Row.limit .sum n + n
  | .factor, e, n => e.depth ≤ factorLimit n
  | .atom, e, n => e.depth ≤ max 1 (factorLimit n - 1)
  | .exprs, items, n => ∀ e ∈ items, e.depth + 2 ≤ factorLimit n
  | .clauses, _, _ => True
  | .clause, _, _ => True
  | .filters, _, _ => True

/-- A node with two parts is one deeper than the deeper one. -/
theorem Expr.depth_le_of_pair {e lhs rhs : Expr} (hparts : e.parts = [lhs, rhs])
    (hclauses : e.clauseParts = []) : e.depth ≤ max lhs.depth rhs.depth + 1 := by
  refine depth_le_of_parts hclauses fun c hc ↦ ?_
  rw [hparts] at hc
  rcases List.mem_pair.1 hc with rfl | rfl
  · exact le_max_left _ _
  · exact le_max_right _ _

section Rules

variable {m n : Nat}

theorem low_row {r : Row} {first joined : Expr} (hfirst : first.depth ≤ r.limit m)
    (hrest : Low (.rest r first) joined n) : Low (.row r) joined (max m n) := by
  have hm := r.limit_mono (Nat.le_max_left m n)
  have hn := r.limit_mono (Nat.le_max_right m n)
  simp only [Low] at hrest ⊢
  omega

theorem low_restCons {r : Row} {mark : Mark} {join : Expr → Expr → Expr} {lhs rhs joined : Expr}
    (hjoin : r.Joins mark join) (hrhs : rhs.depth ≤ r.limit m)
    (hrest : Low (.rest r (join lhs rhs)) joined n) :
    Low (.rest r lhs) joined (max m n + 1) := by
  obtain ⟨hparts, hclauses⟩ := parts_join hjoin lhs rhs
  have hnode := Expr.depth_le_of_pair hparts hclauses
  have hm := r.limit_mono (show m ≤ max m n + 1 by omega)
  have hn := r.limit_mono (show n ≤ max m n + 1 by omega)
  simp only [Low] at hrest ⊢
  omega

theorem low_unary (op : UnaryOp) {operand : Expr} {bound : Nat} (h : operand.depth ≤ bound) :
    (Expr.unary op operand).depth ≤ bound + 1 := by
  refine Expr.depth_le_of_parts rfl fun c hc ↦ ?_
  obtain rfl := List.mem_singleton.1 hc
  exact h

theorem low_compare {first : Expr} {links : List Link} (hfirst : Low (.row .sum) first m)
    (hlinks : Low .links links n) : Low .comparison (.compare first links) (max m n) := by
  have hm := Row.limit_mono .sum (Nat.le_max_left m n)
  have hn := Row.limit_mono .sum (Nat.le_max_right m n)
  have hnode : (Expr.compare first links).depth ≤ Row.limit .sum (max m n) + max m n + 1 := by
    refine Expr.depth_le_of_parts rfl fun c hc ↦ ?_
    rcases List.mem_cons.1 hc with rfl | hc
    · simp only [Low] at hfirst
      omega
    · obtain ⟨l, hl, rfl⟩ := List.mem_map.1 hc
      have hlink := hlinks l hl
      omega
  simp only [Low, Row.limit] at hnode ⊢
  omega

theorem low_conditional {value condition otherwise : Expr} {k : Nat}
    (hvalue : Low (.row .disjunction) value k) (hcondition : Low (.row .disjunction) condition m)
    (hotherwise : Low .expr otherwise n) :
    Low .expr (.conditional value condition otherwise) (max k (max m n) + 1) := by
  simp only [Low, Row.limit] at hvalue hcondition hotherwise ⊢
  -- The branch after `else` is an expression and has a level, so the last step is a full one.
  have hpos : 1 ≤ n := by
    by_contra hzero
    obtain rfl : n = 0 := by omega
    have hlimit : factorLimit 0 = 1 := rfl
    omega
  have hnode : (Expr.conditional value condition otherwise).depth ≤
      max value.depth (max condition.depth otherwise.depth) + 1 := by
    refine Expr.depth_le_of_parts rfl fun c hc ↦ ?_
    simp only [Expr.parts, List.mem_cons, List.not_mem_nil, or_false] at hc
    rcases hc with rfl | rfl | rfl <;> omega
  have hk := factorLimit_mono (Nat.le_max_left k (max m n))
  have hm := factorLimit_mono ((Nat.le_max_left m n).trans (Nat.le_max_right k (max m n)))
  have hn := factorLimit_mono ((Nat.le_max_right m n).trans (Nat.le_max_right k (max m n)))
  have hstep := factorLimit_add_four (show 1 ≤ max k (max m n) by omega)
  omega

theorem low_power {base exponent : Expr} (hbase : Low .atom base m)
    (hexponent : Low .factor exponent n) :
    Low .factor (.binary .pow base exponent) (max m (n + 1)) := by
  have hnode : (Expr.binary .pow base exponent).depth ≤ max base.depth exponent.depth + 1 :=
    Expr.depth_le_of_pair rfl rfl
  have hm := factorLimit_mono (Nat.le_max_left m (n + 1))
  have hn := factorLimit_mono (Nat.le_max_right m (n + 1))
  have hstep := factorLimit_add_three n
  simp only [Low] at hbase hexponent ⊢
  omega

/-- What stands between brackets is a node over its items. -/
theorem low_items {e : Expr} (hclauses : e.clauseParts = []) (hitems : Low .exprs e.parts n) :
    Low .atom e n := by
  have hnode : e.depth ≤ factorLimit n - 2 + 1 :=
    Expr.depth_le_of_parts hclauses fun c hc ↦ Nat.le_sub_of_add_le (hitems c hc)
  have hpos : 1 ≤ factorLimit n := Nat.le_max_left _ _
  simp only [Low]
  omega

end Rules

/-- Without `for`, the tree of every phrase is at most as deep as its levels admit. -/
theorem Phrase.low {s : Symbol} {ts : List Token} {t : s.Tree} {n : Nat} (h : Phrase s ts t n) :
    (∀ t ∈ ts, t ≠ .mark .kwFor) → Low s t n := by
  induction h with
  | @plain ts e n _ ih =>
    intro hfor
    have hrow := ih hfor
    have hstep := factorLimit_add_three n
    simp only [Low, Row.limit] at hrow ⊢
    omega
  | conditional _ _ _ ihv ihc iho =>
    intro hfor
    simp only [List.forall_mem_append, List.forall_mem_cons] at hfor
    exact low_conditional (ihv hfor.1) (ihc hfor.2.2.1) (iho hfor.2.2.2.2)
  | row _ _ ihf ihr =>
    intro hfor
    rw [List.forall_mem_append] at hfor
    exact low_row (ihf hfor.1) (ihr hfor.2)
  | restNil => exact fun _ ↦ le_max_left _ _
  | restCons hjoin _ _ iho ihr =>
    intro hfor
    simp only [List.forall_mem_append, List.forall_mem_cons] at hfor
    exact low_restCons hjoin (iho hfor.2.1) (ihr hfor.2.2)
  | @conjunction ts e n _ ih =>
    intro hfor
    have hrow := ih hfor
    simp only [Low, Row.limit] at hrow ⊢
    omega
  | inversion _ ih => exact ih
  | @term ts e n _ ih =>
    intro hfor
    have hrow := ih hfor
    simp only [Low, Row.limit] at hrow ⊢
    omega
  | factor _ ih => exact ih
  | @not ts e n _ ih =>
    intro hfor
    have hnode := low_unary .not (ih (List.forall_mem_cons.1 hfor).2)
    have hstep := factorLimit_add_three n
    simp only [Low, Row.limit] at hnode ⊢
    omega
  | comparison _ ih => exact ih
  | @sum ts e n _ ih =>
    intro hfor
    have hrow := ih hfor
    simp only [Low, Row.limit] at hrow ⊢
    omega
  | compare _ _ ihf ihl =>
    intro hfor
    rw [List.forall_mem_append] at hfor
    exact low_compare (ihf hfor.1) (ihl hfor.2)
  | linksNil => exact fun _ ↦ List.forall_mem_nil _
  | @linksCons mark op ts us operand more m n _ _ _ iho ihm =>
    intro hfor
    simp only [List.forall_mem_append, List.forall_mem_cons] at hfor
    have hm := Row.limit_mono .sum (Nat.le_max_left m n)
    have hn := Row.limit_mono .sum (Nat.le_max_right m n)
    refine List.forall_mem_cons.2 ⟨?_, fun l hl ↦ ?_⟩
    · have hoperand := iho hfor.2.1
      simp only [Low, Link.operand] at hoperand ⊢
      omega
    · have hlink := ihm hfor.2.2 l hl
      omega
  | @sign t op ts e n _ _ ih =>
    intro hfor
    have hnode := low_unary op (ih (List.forall_mem_cons.1 hfor).2)
    have hstep := factorLimit_add_three n
    simp only [Low] at hnode ⊢
    omega
  | @atom ts e n _ ih =>
    intro hfor
    have hatom := ih hfor
    have hpos : 1 ≤ factorLimit n := Nat.le_max_left _ _
    simp only [Low] at hatom ⊢
    omega
  | power _ _ ihb ihe =>
    intro hfor
    simp only [List.forall_mem_append, List.forall_mem_cons] at hfor
    exact low_power (ihb hfor.1) (ihe hfor.2.2)
  | number => exact fun _ ↦ low_items rfl (List.forall_mem_nil _)
  | name => exact fun _ ↦ low_items rfl (List.forall_mem_nil _)
  | range _ _ ih =>
    intro hfor
    simp only [List.forall_mem_append, List.forall_mem_cons] at hfor
    exact low_items rfl (ih hfor.2.2.1)
  | unit => exact fun _ ↦ low_items rfl (List.forall_mem_nil _)
  | @group ts e n _ ih =>
    intro hfor
    simp only [List.forall_mem_append, List.forall_mem_cons] at hfor
    have hexpr := ih hfor.2.1
    simp only [Low] at hexpr ⊢
    omega
  | single _ ih =>
    intro hfor
    simp only [List.forall_mem_append, List.forall_mem_cons] at hfor
    exact low_items rfl (List.forall_mem_singleton.2 (ih hfor.2.1))
  | @tuple ts us e items m n _ _ ihe ihi =>
    intro hfor
    simp only [List.forall_mem_append, List.forall_mem_cons] at hfor
    have hm := factorLimit_mono (Nat.le_max_left m n)
    have hn := factorLimit_mono (Nat.le_max_right m n)
    refine low_items rfl (List.forall_mem_cons.2 ⟨?_, fun c hc ↦ ?_⟩)
    · exact (ihe hfor.2.1).trans hm
    · exact (ihi hfor.2.2.2.1 c hc).trans hn
  | empty => exact fun _ ↦ low_items rfl (List.forall_mem_nil _)
  | list _ ih =>
    intro hfor
    simp only [List.forall_mem_append, List.forall_mem_cons] at hfor
    exact low_items rfl (ih hfor.2.1)
  | @comprehension ts us element c more m n _ hclauses _ _ =>
    -- The first clause starts with `for`.
    intro hfor
    cases hclauses with
    | clausesCons hclause _ =>
      cases hclause with
      | clause => exact absurd rfl (hfor (.mark .kwFor) (by simp))
  | last _ ih => exact fun hfor ↦ List.forall_mem_singleton.2 (ih hfor)
  | trailing _ ih =>
    intro hfor
    exact List.forall_mem_singleton.2 (ih (List.forall_mem_append.1 hfor).1)
  | @more ts us e items m n _ _ ihe ihi =>
    intro hfor
    simp only [List.forall_mem_append, List.forall_mem_cons] at hfor
    have hm := factorLimit_mono (Nat.le_max_left m n)
    have hn := factorLimit_mono (Nat.le_max_right m n)
    refine List.forall_mem_cons.2 ⟨?_, fun c hc ↦ ?_⟩
    · exact (ihe hfor.1).trans hm
    · exact (ihi hfor.2.2 c hc).trans hn
  | clausesNil => exact fun _ ↦ trivial
  | clausesCons => exact fun _ ↦ trivial
  | clause => exact fun _ ↦ trivial
  | filtersNil => exact fun _ ↦ trivial
  | filtersCons => exact fun _ ↦ trivial

/-! ### Towers -/

/-- What an operator makes of an operand and so many names after it. -/
def repeated (join : Expr → Expr → Expr) : Nat → Expr → Expr
  | 0, lhs => lhs
  | k + 1, lhs => repeated join k (join lhs (.name "x"))

/-- The tokens of an operator and a name, so many times. -/
def repeatedTokens (mark : Mark) : Nat → List Token
  | 0 => []
  | k + 1 => .mark mark :: .name "x" :: repeatedTokens mark k

/-- As many operators of each row as there may be, over what is between brackets:
`[ground] ** x * x … + x … < x and x … or x … if x else x`. -/
def storey (k : Nat) (ground : Expr) : Expr :=
  let terms := repeated (.binary .mul) k (.binary .pow (.list [ground]) (.name "x"))
  let sums := repeated (.binary .add) k terms
  let conjunctions := repeated (.logic .and) k (.compare sums [.mk .lt (.name "x")])
  .conditional (repeated (.logic .or) k conjunctions) (.name "x") (.name "x")

/-- The tokens of a storey. -/
def storeyTokens (k : Nat) (ground : List Token) : List Token :=
  let power := (.mark .bracketOpen :: (ground ++ [.mark .bracketClose])) ++
    .mark .starStar :: [.name "x"]
  let sums := (power ++ repeatedTokens .star k) ++ repeatedTokens .plus k
  let conjunctions := (sums ++ [.mark .less, .name "x"]) ++ repeatedTokens .kwAnd k
  (conjunctions ++ repeatedTokens .kwOr k) ++
    [.mark .kwIf, .name "x", .mark .kwElse, .name "x"]

/-- Storeys on one another, on a comparison. -/
def tower : Nat → Expr
  | 0 => .compare (.name "x") [.mk .lt (.name "x")]
  | k + 1 => storey (k + 1) (tower k)

/-- The tokens of a tower. -/
def towerTokens : Nat → List Token
  | 0 => [.name "x", .mark .less, .name "x"]
  | k + 1 => storeyTokens (k + 1) (towerTokens k)

section Rows

variable {r : Row} {mark : Mark} {join : Expr → Expr → Expr}

theorem Phrase.operand_of_factor {ts : List Token} {e : Expr} {n : Nat}
    (h : Phrase .factor ts e n) : (r : Row) → Phrase (.operand r) ts e n
  | .term => .factor h
  | .sum => .term (row_of_operand (.factor h))
  | .conjunction => .inversion h.inversion_of_factor
  | .disjunction => .conjunction (row_of_operand (.inversion h.inversion_of_factor))

theorem phrase_x : Phrase .factor [.name "x"] (.name "x") 0 :=
  .atom (.name (by decide))

theorem phrase_rest_repeated (hjoin : r.Joins mark join) (k : Nat) (lhs : Expr) :
    Phrase (.rest r lhs) (repeatedTokens mark k) (repeated join k lhs) k := by
  induction k generalizing lhs with
  | zero => exact .restNil
  | succ k ih =>
    have hrest := Phrase.restCons hjoin (phrase_x.operand_of_factor r) (ih (join lhs (.name "x")))
    rwa [Nat.zero_max] at hrest

/-- So many operators of a row open so many levels, and no more if their first operand opens no
more. -/
theorem phrase_row_repeated (hjoin : r.Joins mark join) {ts : List Token} {lhs : Expr}
    {k n : Nat} (h : Phrase (.operand r) ts lhs n) (hn : n ≤ k) :
    Phrase (.row r) (ts ++ repeatedTokens mark k) (repeated join k lhs) k := by
  have hrow := Phrase.row h (phrase_rest_repeated hjoin k lhs)
  rwa [Nat.max_eq_right hn] at hrow

theorem depth_repeated (hjoin : r.Joins mark join) (k : Nat) (lhs : Expr) :
    lhs.depth + k ≤ (repeated join k lhs).depth := by
  induction k generalizing lhs with
  | zero => exact le_rfl
  | succ k ih =>
    have hmem : lhs ∈ (join lhs (.name "x")).children := by
      rw [Expr.children, (parts_join hjoin lhs _).1, (parts_join hjoin lhs _).2]
      exact List.mem_cons_self
    have hlt := Expr.depth_lt_of_mem_children hmem
    have hih := ih (join lhs (.name "x"))
    rw [repeated]
    omega

end Rows

/-- A storey opens one level more than what it is on. -/
theorem phrase_storey {ts : List Token} {ground : Expr} {k : Nat} (h : Phrase .expr ts ground k)
    (hk : 1 ≤ k) : Phrase .expr (storeyTokens k ts) (storey k ground) (k + 1) := by
  have hpower := Phrase.power (.list (.last h)) phrase_x
  have hterms := phrase_row_repeated .mul (.factor hpower) (Nat.max_le.2 ⟨le_rfl, hk⟩)
  have hsums := phrase_row_repeated .add (.term hterms) le_rfl
  have hx := phrase_x.operand_of_factor .sum
  have hcompare := Phrase.compare hsums (.linksCons .lt (.row_of_operand hx) .linksNil)
  have hconjunctions := phrase_row_repeated .and (.inversion (.comparison hcompare))
    (Nat.max_le.2 ⟨le_rfl, Nat.zero_le k⟩)
  have hvalue := phrase_row_repeated .or (.conjunction hconjunctions) le_rfl
  have hcondition := Phrase.row_of_operand (phrase_x.operand_of_factor .disjunction)
  have hexpr := Phrase.conditional hvalue hcondition (.plain hcondition)
  have hlevels : max k (max 0 (0 + 1)) = k := by omega
  rwa [hlevels] at hexpr

/-- A storey is deeper than what it is on by four rows of operators and four more nodes. -/
theorem depth_storey (k : Nat) (ground : Expr) :
    ground.depth + (4 * k + 4) ≤ (storey k ground).depth := by
  have hlist : ground.depth < (Expr.list [ground]).depth :=
    Expr.depth_lt_of_mem_children (by simp [Expr.children, Expr.parts])
  have hpower : (Expr.list [ground]).depth <
      (Expr.binary .pow (.list [ground]) (.name "x")).depth :=
    Expr.depth_lt_of_mem_children (by simp [Expr.children, Expr.parts])
  have hterms := depth_repeated .mul k (.binary .pow (.list [ground]) (.name "x"))
  have hsums := depth_repeated .add k
    (repeated (.binary .mul) k (.binary .pow (.list [ground]) (.name "x")))
  generalize hsum : repeated (.binary .add) k _ = sums at hsums
  have hcompare : sums.depth < (Expr.compare sums [.mk .lt (.name "x")]).depth :=
    Expr.depth_lt_of_mem_children (by simp [Expr.children, Expr.parts])
  have hconjunctions := depth_repeated .and k (.compare sums [.mk .lt (.name "x")])
  have hdisjunctions := depth_repeated .or k
    (repeated (.logic .and) k (.compare sums [.mk .lt (.name "x")]))
  generalize hvalue : repeated (.logic .or) k _ = value at hdisjunctions
  have hconditional : value.depth < (Expr.conditional value (.name "x") (.name "x")).depth :=
    Expr.depth_lt_of_mem_children (by simp [Expr.children, Expr.parts])
  rw [storey, hsum, hvalue]
  omega

theorem phrase_tower (k : Nat) : Phrase .expr (towerTokens k) (tower k) (k + 1) := by
  induction k with
  | zero =>
    have hsum := Phrase.row_of_operand (phrase_x.operand_of_factor .sum)
    have hcompare := Phrase.compare hsum (.linksCons .lt hsum .linksNil)
    exact .plain (Phrase.comparison hcompare).disjunction_of_inversion
  | succ k ih => exact phrase_storey ih (Nat.succ_pos k)

/-- The depth of a tower, which is greatest for its levels. -/
theorem depth_tower (k : Nat) : 2 * (k + 1) * (k + 1 + 1) ≤ (tower k).depth + 2 := by
  induction k with
  | zero =>
    have hx : (Expr.name "x").depth < (tower 0).depth :=
      Expr.depth_lt_of_mem_children (by simp [tower, Expr.children, Expr.parts])
    have hpos := Expr.depth_eq (.name "x")
    omega
  | succ k ih =>
    have hstorey := depth_storey (k + 1) (tower k)
    have hmul : 2 * (k + 1 + 1) * (k + 1 + 1 + 1) =
        2 * (k + 1) * (k + 1 + 1) + (4 * (k + 1) + 4) := by ring
    rw [hmul, tower]
    omega

/-- The marks and names of expressions without `for`. -/
def Token.IsForFree (t : Token) : Prop :=
  t.IsWord ∧ t ≠ .mark .kwFor

theorem isForFree_mark {mark : Mark} (h : mark ≠ .kwFor) : (Token.mark mark).IsForFree :=
  ⟨trivial, fun heq ↦ h (Token.mark.inj heq)⟩

theorem isForFree_x : (Token.name "x").IsForFree :=
  ⟨by decide, Token.noConfusion⟩

theorem isForFree_repeatedTokens {mark : Mark} (h : mark ≠ .kwFor) (k : Nat) :
    ∀ t ∈ repeatedTokens mark k, t.IsForFree := by
  induction k with
  | zero => exact List.forall_mem_nil _
  | succ k ih =>
    exact List.forall_mem_cons.2 ⟨isForFree_mark h, List.forall_mem_cons.2 ⟨isForFree_x, ih⟩⟩

theorem isForFree_towerTokens (k : Nat) : ∀ t ∈ towerTokens k, t.IsForFree := by
  induction k with
  | zero => simp [towerTokens, isForFree_x, isForFree_mark]
  | succ k ih =>
    simp only [towerTokens, storeyTokens, List.forall_mem_append, List.forall_mem_cons,
      List.not_mem_nil, IsEmpty.forall_iff, implies_true, isForFree_x, isForFree_mark, ne_eq,
      reduceCtorEq, not_false_eq_true, true_and, and_true]
    exact ⟨⟨⟨⟨ih, isForFree_repeatedTokens (by decide) _⟩, isForFree_repeatedTokens (by decide) _⟩,
      isForFree_repeatedTokens (by decide) _⟩, isForFree_repeatedTokens (by decide) _⟩

/-! ### Accepted texts -/

namespace Expr

/-- There is no `for` among the tokens of a text. -/
def ForFree (text : String) : Prop :=
  ∃ ls, lexemes 0 text.toList = .ok ls ∧ ∀ l ∈ ls, l.token ≠ .mark .kwFor

/-- The depths of what is accepted from texts without `for`. -/
def acceptedDepths : Set Nat :=
  {d | ∃ text e, ForFree text ∧ parse text = .ok e ∧ e.depth = d}

/-- The depths of what is accepted from texts without `for` with at most so many levels. -/
def acceptedDepthsAt (levels : Nat) : Set Nat :=
  {d | ∃ text e ls n, lexemes 0 text.toList = .ok ls ∧ (∀ l ∈ ls, l.token ≠ .mark .kwFor) ∧
    Phrase .expr (ls.map (·.token)) e n ∧ n ≤ levels ∧ parse text = .ok e ∧ e.depth = d}

theorem acceptedDepths_eq : acceptedDepths = acceptedDepthsAt maxNesting := by
  ext d
  constructor
  · rintro ⟨text, e, ⟨ls, hls, hfor⟩, hparse, hdepth⟩
    obtain ⟨n, hn, hphrase⟩ := phrase_of_parse hls hparse
    exact ⟨text, e, ls, n, hls, hfor, hphrase, hn, hparse, hdepth⟩
  · rintro ⟨text, e, ls, n, hls, hfor, -, -, hparse, hdepth⟩
    exact ⟨text, e, ⟨ls, hls, hfor⟩, hparse, hdepth⟩

/-- What is spelled without `for` is accepted without `for`. -/
theorem forFree_spell {ts : List Token} (hts : ∀ t ∈ ts, t.IsForFree) :
    ∃ ls, lexemes 0 (String.ofList (spell ts)).toList = .ok ls ∧ ls.map (·.token) = ts ∧
      ∀ l ∈ ls, l.token ≠ .mark .kwFor := by
  obtain ⟨ls, hls, htokens⟩ := lexemes_spell (fun t ht ↦ (hts t ht).1) 0
  rw [← String.toList_ofList (l := spell _)] at hls
  refine ⟨ls, hls, htokens, fun l hl ↦ (hts l.token ?_).2⟩
  rw [← htokens]
  exact List.mem_map_of_mem hl

theorem add_two_le_of_mem_acceptedDepthsAt {n d : Nat} (h : d ∈ acceptedDepthsAt n) :
    d + 2 ≤ factorLimit n := by
  obtain ⟨text, e, ls, k, hls, hfor, hphrase, hk, hparse, rfl⟩ := h
  have hlow := hphrase.low fun t ht ↦ by
    obtain ⟨l, hl, rfl⟩ := List.mem_map.1 ht
    exact hfor l hl
  exact Nat.le_trans hlow (factorLimit_mono hk)

/-- The greatest depth for every number of levels is that of a tower. -/
theorem isGreatest_acceptedDepthsAt {n : Nat} (h : n + 1 ≤ maxNesting) :
    IsGreatest (acceptedDepthsAt (n + 1)) (2 * (n + 1) * (n + 1 + 1) - 2) := by
  have hlimit : factorLimit (n + 1) = 2 * (n + 1) * (n + 1 + 1) :=
    Nat.max_eq_right (Nat.mul_pos (by omega) (by omega))
  have hupper : ∀ d ∈ acceptedDepthsAt (n + 1), d ≤ 2 * (n + 1) * (n + 1 + 1) - 2 := by
    intro d hd
    have hbound := add_two_le_of_mem_acceptedDepthsAt hd
    omega
  have hwords := isForFree_towerTokens n
  obtain ⟨ls, hls, htokens, hfor⟩ := forFree_spell hwords
  have htower : (tower n).depth ∈ acceptedDepthsAt (n + 1) :=
    ⟨_, tower n, ls, n + 1, hls, hfor, htokens ▸ phrase_tower n, le_rfl,
      parse_spell (fun t ht ↦ (hwords t ht).1) (phrase_tower n) h, rfl⟩
  have hdepth : (tower n).depth = 2 * (n + 1) * (n + 1 + 1) - 2 := by
    have hlower := depth_tower n
    have hle := hupper _ htower
    omega
  exact ⟨hdepth ▸ htower, hupper⟩

theorem forall_acceptedDepthsAt_le_iff {levels : Nat} (h : levels ≤ maxNesting) (bound : Nat) :
    (∀ d ∈ acceptedDepthsAt levels, d ≤ bound) ↔ 2 * levels * (levels + 1) ≤ bound + 2 := by
  cases levels with
  | zero =>
    refine ⟨fun _ ↦ Nat.zero_le _, fun _ d hd ↦ ?_⟩
    have hbound := add_two_le_of_mem_acceptedDepthsAt hd
    have hlimit : factorLimit 0 = 1 := rfl
    omega
  | succ n =>
    have hgreatest := isGreatest_acceptedDepthsAt h
    constructor
    · intro hdepths
      have hle := hdepths _ hgreatest.1
      omega
    · intro hle d hd
      have hupper := hgreatest.2 hd
      omega

/-- All that is accepted without `for` is within a bound of the depth if and only if the bound is at
least 8318, and all that is accepted with so many levels if and only if the bound is at least the
depth of a tower of so many levels: so the bound 64 holds up to five levels. -/
theorem depth_le_iff (bound : Nat) :
    ((∀ text e, ForFree text → parse text = .ok e → e.depth ≤ bound) ↔ 8318 ≤ bound) ∧
    ∀ levels ≤ 64, (∀ d ∈ acceptedDepthsAt levels, d ≤ bound) ↔
      2 * levels * (levels + 1) ≤ bound + 2 := by
  refine ⟨?_, fun levels hlevels ↦ forall_acceptedDepthsAt_le_iff hlevels bound⟩
  have hlimit : 8318 ≤ bound ↔ 2 * maxNesting * (maxNesting + 1) ≤ bound + 2 := by
    change _ ↔ 2 * 64 * (64 + 1) ≤ bound + 2
    omega
  rw [hlimit, ← forall_acceptedDepthsAt_le_iff le_rfl, ← acceptedDepths_eq]
  constructor
  · rintro hall d ⟨text, e, hfor, hparse, rfl⟩
    exact hall text e hfor hparse
  · intro hall text e hfor hparse
    exact hall _ ⟨text, e, hfor, hparse, rfl⟩

/-- The operators of two rows add up: `x * x * … * x + x` with 63 multiplications is accepted, and
its tree is 65 deep. -/
theorem not_depth_le_maxNesting :
    ¬ ∀ text e, ForFree text → parse text = .ok e → e.depth ≤ 64 := by
  intro hall
  have hterms := phrase_row_repeated .mul (.factor phrase_x) (Nat.zero_le 63)
  have hsum := Phrase.row (.term hterms) (phrase_rest_repeated .add 1 _)
  have hexpr := Phrase.plain (Phrase.comparison (.sum hsum)).disjunction_of_inversion
  have hwords : ∀ t ∈ ([.name "x"] ++ repeatedTokens .star 63) ++ repeatedTokens .plus 1,
      t.IsForFree := by
    simp only [List.forall_mem_append, List.forall_mem_singleton]
    exact ⟨⟨isForFree_x, isForFree_repeatedTokens (by decide) 63⟩,
      isForFree_repeatedTokens (by decide) 1⟩
  obtain ⟨ls, hls, -, hfor⟩ := forFree_spell hwords
  have hparse := parse_spell (fun t ht ↦ (hwords t ht).1) hexpr le_rfl
  have hle := hall _ _ ⟨ls, hls, hfor⟩ hparse
  have hx := depth_eq (.name "x")
  have hmul := depth_repeated .mul 63 (.name "x")
  have hadd := depth_repeated .add 1 (repeated (.binary .mul) 63 (.name "x"))
  have hmax : maxNesting = 64 := rfl
  omega

end Expr

end Waypoints
