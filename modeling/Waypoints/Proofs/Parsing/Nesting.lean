import Mathlib.Tactic.Ring
import Waypoints.Proofs.Expr.Tree
import Waypoints.Proofs.Parsing.Language
/-!
# How deep accepted expressions are

The levels of a phrase bound the depth of its tree, but not alone: what a clause runs over and the
conditions of a clause open no level of their own. `depthBound` is the greatest depth for so many
levels and so many steps into clauses on one branch, and `Phrase.shallow` the induction over the
grammar. So accepted texts are of bounded depth exactly as far as their comprehensions are of
bounded nesting in clauses (`Expr.depth_bounded_iff`), and on all accepted texts there is no bound
(`Expr.not_depth_bounded`).
-/

set_option autoImplicit false
set_option relaxedAutoImplicit false

namespace Waypoints

/-! ### The bound -/

/-- The depth of an expression is at most this for so many levels and steps into clauses. -/
def depthBound (levels nesting : Nat) : Nat :=
  2 * levels * (levels + 1) + nesting * (4 * levels + 3)

theorem depthBound_mono {m n j k : Nat} (hm : m ≤ n) (hj : j ≤ k) :
    depthBound m j ≤ depthBound n k := by
  have hlevels : 2 * m * (m + 1) ≤ 2 * n * (n + 1) :=
    Nat.mul_le_mul (Nat.mul_le_mul_left 2 hm) (Nat.succ_le_succ hm)
  have hnesting : j * (4 * m + 3) ≤ k * (4 * n + 3) :=
    Nat.mul_le_mul hj (Nat.add_le_add_right (Nat.mul_le_mul_left 4 hm) 3)
  exact Nat.add_le_add hlevels hnesting

theorem depthBound_succ_levels (n k : Nat) :
    depthBound n k + (4 * n + 4) ≤ depthBound (n + 1) k := by
  have hlevels : 2 * (n + 1) * (n + 1 + 1) = 2 * n * (n + 1) + (4 * n + 4) := by ring
  have hnesting : k * (4 * n + 3) ≤ k * (4 * (n + 1) + 3) :=
    Nat.mul_le_mul_left k (by omega)
  rw [depthBound, depthBound, hlevels]
  omega

theorem depthBound_succ_nesting (n k : Nat) :
    depthBound n (k + 1) = depthBound n k + (4 * n + 3) := by
  rw [depthBound, depthBound, Nat.add_mul, Nat.one_mul, Nat.add_assoc]

/-- The depth of a tree is at most the bound for its levels, with an allowance. -/
def Expr.Within (base slope : Nat) (e : Expr) (n : Nat) : Prop :=
  e.depth ≤ depthBound n e.clauseNesting + (base + slope * n)

theorem Expr.Within.depth_le {base slope m n k : Nat} {e : Expr} (h : e.Within base slope m)
    (hm : m ≤ n) (hk : e.clauseNesting ≤ k) : e.depth ≤ depthBound n k + (base + slope * n) := by
  have hbound := depthBound_mono hm hk
  have hslope := Nat.mul_le_mul_left slope hm
  unfold Within at h
  omega

/-! ### Nodes -/

namespace Expr

/-- A node without clauses is one deeper than its parts. -/
theorem depth_le_of_parts {e : Expr} {m : Nat} (hclauses : e.clauseParts = [])
    (h : ∀ c ∈ e.parts, c.depth ≤ m) : e.depth ≤ m + 1 := by
  refine depth_le_succ fun c hc ↦ h c ?_
  rwa [children, hclauses, List.append_nil] at hc

/-- A node without clauses is within the allowance that is one more than those of its parts. -/
theorem Within.node {e : Expr} {base slope n : Nat} (hclauses : e.clauseParts = [])
    (h : ∀ c ∈ e.parts, ∃ m, m ≤ n ∧ c.Within base slope m) : e.Within (base + 1) slope n := by
  have hdepth := depth_le_of_parts hclauses fun c hc ↦ by
    obtain ⟨m, hm, hc'⟩ := h c hc
    exact hc'.depth_le hm (clauseNesting_le_of_mem_parts hc)
  unfold Within
  omega

theorem Within.mono {e : Expr} {base slope base' slope' m n : Nat} (h : e.Within base slope m)
    (hm : m ≤ n) (hbase : base ≤ base') (hslope : slope ≤ slope') : e.Within base' slope' n := by
  have hdepth := h.depth_le hm le_rfl
  have hle := Nat.mul_le_mul_right n hslope
  unfold Within
  omega

/-- One more level makes up for an allowance of four and four for each level. -/
theorem Within.succ {e : Expr} {base slope n : Nat} (h : e.Within base slope n) (hbase : base ≤ 4)
    (hslope : slope ≤ 4) : e.Within 0 0 (n + 1) := by
  have hbound := depthBound_succ_levels n e.clauseNesting
  have hle := Nat.mul_le_mul_right n hslope
  unfold Within at h ⊢
  omega

/-- One more level makes up for one node. -/
theorem Within.up {e : Expr} {base slope n : Nat} (h : e.Within (base + 1) slope n) :
    e.Within base slope (n + 1) := by
  have hbound := depthBound_succ_levels n e.clauseNesting
  have hslope := Nat.mul_le_mul_left slope (show n ≤ n + 1 by omega)
  unfold Within at h ⊢
  omega

/-- A step into a clause makes up for an allowance of three and four for each level. -/
theorem Within.depth_le_clause {e : Expr} {base slope m n k : Nat} (h : e.Within base slope m)
    (hm : m ≤ n) (hk : e.clauseNesting < k) (hbase : base ≤ 3) (hslope : slope ≤ 4) :
    e.depth ≤ depthBound n k := by
  obtain ⟨j, rfl⟩ : ∃ j, k = j + 1 := ⟨k - 1, by omega⟩
  have hdepth := h.depth_le hm (Nat.le_of_lt_succ hk)
  have hle := Nat.mul_le_mul_right n hslope
  rw [depthBound_succ_nesting]
  omega

end Expr

/-! ### Rows -/

/-- The parts of what an operator joins. -/
theorem parts_join {r : Row} {mark : Mark} {join : Expr → Expr → Expr}
    (h : r.Joins mark join) (lhs rhs : Expr) :
    (join lhs rhs).parts = [lhs, rhs] ∧ (join lhs rhs).clauseParts = [] := by
  cases h <;> exact ⟨rfl, rfl⟩

namespace Row

/-- The allowance of a row's operands, and of the row, for no level. -/
def base : Row → Nat
  | term | sum => 2
  | conjunction | disjunction => 3

/-- The allowance of a row's operands for each level; that of the row is one more. -/
def slope : Row → Nat
  | term => 0
  | sum => 1
  | conjunction => 2
  | disjunction => 3

end Row

/-- Within which bounds the tree of a phrase is. A row is deeper than its operands by at most the
number of its operators. -/
def Shallow : (s : Symbol) → s.Tree → Nat → Prop
  | .expr, e, n => e.Within 0 0 n
  | .row r, e, n => e.Within r.base (r.slope + 1) n
  | .rest r lhs, e, n => lhs.clauseNesting ≤ e.clauseNesting ∧
    e.depth ≤ max lhs.depth (depthBound n e.clauseNesting + (r.base + r.slope * n)) + n
  | .operand r, e, n => e.Within r.base r.slope n
  | .inversion, e, n => e.Within 3 2 n
  | .comparison, e, n => e.Within 3 2 n
  | .links, links, n => ∀ l ∈ links, l.operand.Within 2 2 n
  | .factor, e, n => e.Within 2 0 n
  | .atom, e, n => e.Within 1 0 n
  | .exprs, items, n => ∀ e ∈ items, e.Within 0 0 n
  | .clauses, clauses, n => ∀ c ∈ clauses, ∀ e ∈ c.items :: c.filters, e.Within 3 4 n
  | .clause, c, n => ∀ e ∈ c.items :: c.filters, e.Within 3 4 n
  | .filters, filters, n => ∀ e ∈ filters, e.Within 3 4 n

section Rules

variable {m n : Nat}

theorem shallow_row {r : Row} {first joined : Expr} (hfirst : first.Within r.base r.slope m)
    (hrest : Shallow (.rest r first) joined n) :
    joined.Within r.base (r.slope + 1) (max m n) := by
  obtain ⟨hnesting, hdepth⟩ := hrest
  have hlhs := hfirst.depth_le (Nat.le_max_left m n) hnesting
  have hbound := depthBound_mono (Nat.le_max_right m n) (le_refl joined.clauseNesting)
  have hslope := Nat.mul_le_mul_left r.slope (Nat.le_max_right m n)
  have hmul : (r.slope + 1) * max m n = r.slope * max m n + max m n := Nat.succ_mul _ _
  unfold Expr.Within
  omega

theorem shallow_restCons {r : Row} {mark : Mark} {join : Expr → Expr → Expr} {lhs rhs joined : Expr}
    (hjoin : r.Joins mark join) (hrhs : rhs.Within r.base r.slope m)
    (hrest : Shallow (.rest r (join lhs rhs)) joined n) :
    Shallow (.rest r lhs) joined (max m n + 1) := by
  obtain ⟨hnesting, hdepth⟩ := hrest
  obtain ⟨hparts, hclauses⟩ := parts_join hjoin lhs rhs
  have hmem : lhs ∈ (join lhs rhs).parts ∧ rhs ∈ (join lhs rhs).parts := by
    simp [hparts]
  have hl := (Expr.clauseNesting_le_of_mem_parts hmem.1).trans hnesting
  have hr := (Expr.clauseNesting_le_of_mem_parts hmem.2).trans hnesting
  refine ⟨hl, ?_⟩
  have hrdepth := hrhs.depth_le (show m ≤ max m n + 1 by omega) hr
  have hnode : (join lhs rhs).depth ≤ max lhs.depth rhs.depth + 1 := by
    refine Expr.depth_le_of_parts hclauses fun c hc ↦ ?_
    rw [hparts, List.mem_cons, List.mem_singleton] at hc
    rcases hc with rfl | rfl
    · exact le_max_left _ _
    · exact le_max_right _ _
  have hbound := depthBound_mono (show n ≤ max m n + 1 by omega) (le_refl joined.clauseNesting)
  have hslope := Nat.mul_le_mul_left r.slope (show n ≤ max m n + 1 by omega)
  omega

/-- An operator that opens a level for its operand. -/
theorem shallow_unary {op : UnaryOp} {operand : Expr} {base slope : Nat}
    (h : operand.Within (base + 1) slope n) :
    (Expr.unary op operand).Within (base + 1) slope (n + 1) := by
  refine .node rfl fun c hc ↦ ?_
  obtain rfl := List.mem_singleton.1 hc
  exact ⟨n + 1, le_rfl, h.up⟩

theorem shallow_power {base exponent : Expr} (hbase : base.Within 1 0 m)
    (hexponent : exponent.Within 2 0 n) :
    (Expr.binary .pow base exponent).Within 2 0 (max m (n + 1)) := by
  refine .node rfl fun c hc ↦ ?_
  rcases List.mem_cons.1 hc with rfl | hc
  · exact ⟨m, Nat.le_max_left m (n + 1), hbase⟩
  · obtain rfl := List.mem_singleton.1 hc
    exact ⟨n + 1, Nat.le_max_right m (n + 1), hexponent.up⟩

theorem shallow_comprehension {element : Expr} {clauses : List Clause}
    (helement : element.Within 0 0 m) (hclauses : Shallow .clauses clauses n) :
    (Expr.comprehension element clauses).Within 1 0 (max m n) := by
  have hdepth : (Expr.comprehension element clauses).depth ≤
      depthBound (max m n) (Expr.comprehension element clauses).clauseNesting + 1 := by
    refine Expr.depth_le_succ fun c hc ↦ ?_
    rcases List.mem_append.1 hc with hpart | hclause
    · obtain rfl := List.mem_singleton.1 hpart
      have := helement.depth_le (Nat.le_max_left m n) (Expr.clauseNesting_le_of_mem_parts hpart)
      omega
    · obtain ⟨clause, hmem, hc'⟩ := List.mem_flatMap.1 hclause
      exact (hclauses clause hmem c hc').depth_le_clause (Nat.le_max_right m n)
        (Expr.clauseNesting_lt_of_mem_clauseParts hclause) le_rfl le_rfl
  unfold Expr.Within
  omega

end Rules

/-- The tree of every phrase is within the bounds of its symbol. -/
theorem Phrase.shallow {s : Symbol} {ts : List Token} {t : s.Tree} {n : Nat}
    (h : Phrase s ts t n) : Shallow s t n := by
  induction h with
  | plain _ ih => exact Expr.Within.succ ih (by decide) (by decide)
  | @conditional ts us ws value condition otherwise k m n _ _ _ ihv ihc iho =>
    have hnode : (Expr.conditional value condition otherwise).Within 4 4 (max k (max m n)) := by
      refine .node rfl fun c hc ↦ ?_
      simp only [Expr.parts, List.mem_cons, List.not_mem_nil, or_false] at hc
      rcases hc with rfl | rfl | rfl
      · exact ⟨k, by omega, ihv⟩
      · exact ⟨m, by omega, ihc⟩
      · exact ⟨n, by omega, iho.mono le_rfl (Nat.zero_le 3) (Nat.zero_le 4)⟩
    exact hnode.succ le_rfl le_rfl
  | row _ _ ihf ihr => exact shallow_row ihf ihr
  | restNil => exact ⟨le_rfl, le_max_left _ _⟩
  | restCons hjoin _ _ iho ihr => exact shallow_restCons hjoin iho ihr
  | conjunction _ ih => exact ih
  | inversion _ ih => exact ih
  | term _ ih => exact ih
  | factor _ ih => exact ih
  | not _ ih => exact shallow_unary ih
  | comparison _ ih => exact ih
  | sum _ ih => exact Expr.Within.mono ih le_rfl (by decide) le_rfl
  | @compare ts us first link more m n _ _ ihf ihl =>
    refine .node rfl fun c hc ↦ ?_
    rcases List.mem_cons.1 hc with rfl | hc
    · exact ⟨m, Nat.le_max_left m n, ihf⟩
    · obtain ⟨l, hl, rfl⟩ := List.mem_map.1 hc
      exact ⟨n, Nat.le_max_right m n, ihl l hl⟩
  | linksNil => exact List.forall_mem_nil _
  | @linksCons mark op ts us operand more m n _ _ _ iho ihm =>
    refine List.forall_mem_cons.2 ⟨iho.mono (Nat.le_max_left m n) le_rfl le_rfl, fun l hl ↦ ?_⟩
    exact (ihm l hl).mono (Nat.le_max_right m n) le_rfl le_rfl
  | sign _ _ ih => exact shallow_unary ih
  | atom _ ih => exact Expr.Within.mono ih le_rfl (by decide) le_rfl
  | power _ _ ihb ihe => exact shallow_power ihb ihe
  | number => exact .node rfl (List.forall_mem_nil _)
  | name => exact .node rfl (List.forall_mem_nil _)
  | @range ts args n _ _ ih => exact .node rfl fun c hc ↦ ⟨n, le_rfl, ih c hc⟩
  | unit => exact .node rfl (List.forall_mem_nil _)
  | group _ ih => exact Expr.Within.mono ih le_rfl (by decide) le_rfl
  | @single ts e n _ ih =>
    refine .node rfl fun c hc ↦ ?_
    obtain rfl := List.mem_singleton.1 hc
    exact ⟨n, le_rfl, ih⟩
  | @tuple ts us e items m n _ _ ihe ihi =>
    refine .node rfl fun c hc ↦ ?_
    rcases List.mem_cons.1 hc with rfl | hc
    · exact ⟨m, Nat.le_max_left m n, ihe⟩
    · exact ⟨n, Nat.le_max_right m n, ihi c hc⟩
  | empty => exact .node rfl (List.forall_mem_nil _)
  | @list ts items n _ ih => exact .node rfl fun c hc ↦ ⟨n, le_rfl, ih c hc⟩
  | comprehension _ _ ihe ihc => exact shallow_comprehension ihe ihc
  | last _ ih => exact List.forall_mem_singleton.2 ih
  | trailing _ ih => exact List.forall_mem_singleton.2 ih
  | @more ts us e items m n _ _ ihe ihi =>
    refine List.forall_mem_cons.2 ⟨ihe.mono (Nat.le_max_left m n) le_rfl le_rfl, fun c hc ↦ ?_⟩
    exact (ihi c hc).mono (Nat.le_max_right m n) le_rfl le_rfl
  | clausesNil => exact List.forall_mem_nil _
  | @clausesCons ts us c more m n _ _ ihc ihm =>
    refine List.forall_mem_cons.2 ⟨fun e he ↦ ?_, fun c hc e he ↦ ?_⟩
    · exact (ihc e he).mono (Nat.le_max_left m n) le_rfl le_rfl
    · exact (ihm c hc e he).mono (Nat.le_max_right m n) le_rfl le_rfl
  | @clause loopVar ts us items filters m n _ _ _ ihi ihf =>
    refine List.forall_mem_cons.2 ⟨ihi.mono (Nat.le_max_left m n) le_rfl le_rfl, fun c hc ↦ ?_⟩
    exact (ihf c hc).mono (Nat.le_max_right m n) le_rfl le_rfl
  | filtersNil => exact List.forall_mem_nil _
  | @filtersCons ts us condition more m n _ _ ihc ihm =>
    refine List.forall_mem_cons.2 ⟨ihc.mono (Nat.le_max_left m n) le_rfl le_rfl, fun c hc ↦ ?_⟩
    exact (ihm c hc).mono (Nat.le_max_right m n) le_rfl le_rfl

/-! ### Accepted texts -/

namespace Expr

/-- The depth of what is accepted is bounded by the steps into clauses on one branch. -/
theorem depth_le_of_parse {text : String} {e : Expr} (h : parse text = .ok e) :
    e.depth ≤ 8320 + 259 * e.clauseNesting := by
  obtain ⟨ls, hls⟩ := lexemes_of_parse h
  obtain ⟨n, hn, hphrase⟩ := phrase_of_parse hls h
  have hdepth := Within.depth_le hphrase.shallow hn le_rfl
  have hbound : depthBound maxNesting e.clauseNesting = 8320 + e.clauseNesting * 259 := rfl
  omega

/-- The accepted expressions of a set of texts are of bounded depth if and only if the steps into
clauses on one branch of them are bounded, each of which adds at most 259 to the bound. -/
theorem depth_bounded_iff (texts : String → Prop) :
    ((∃ bound, ∀ text e, texts text → parse text = .ok e → e.depth ≤ bound) ↔
      ∃ nesting, ∀ text e, texts text → parse text = .ok e → e.clauseNesting ≤ nesting) ∧
    ∀ text e, parse text = .ok e → e.depth ≤ 8320 + 259 * e.clauseNesting := by
  constructor
  · constructor
    · rintro ⟨bound, hbound⟩
      refine ⟨bound, fun text e htext h ↦ ?_⟩
      exact (clauseNesting_lt_depth e).le.trans (hbound text e htext h)
    · rintro ⟨nesting, hnesting⟩
      refine ⟨8320 + 259 * nesting, fun text e htext h ↦ ?_⟩
      have hdepth := depth_le_of_parse h
      have hle := hnesting text e htext h
      omega
  · intro text e h
    exact depth_le_of_parse h

/-! ### Clauses inside clauses -/

/-- The tokens of `[x for a in [x for a in … [] … ]]`. -/
def chainTokens : Nat → List Token
  | 0 => [.mark .bracketOpen, .mark .bracketClose]
  | k + 1 => .mark .bracketOpen :: .name "x" :: .mark .kwFor :: .name "a" :: .mark .kwIn ::
    (chainTokens k ++ [.mark .bracketClose])

/-- Comprehensions each of which runs over the next one. -/
def chain : Nat → Expr
  | 0 => .list []
  | k + 1 => .comprehension (.name "x") [.mk "a" (chain k) []]

theorem isWord_of_mem_chainTokens (k : Nat) : ∀ t ∈ chainTokens k, t.IsWord := by
  induction k with
  | zero => decide
  | succ k ih =>
    have hclose : ∀ t ∈ chainTokens k ++ [.mark .bracketClose], t.IsWord := by
      intro t ht
      rcases List.mem_append.1 ht with ht | ht
      · exact ih t ht
      · obtain rfl := List.mem_singleton.1 ht
        trivial
    simp only [chainTokens, List.forall_mem_cons]
    exact ⟨trivial, by decide, trivial, by decide, trivial, hclose⟩

/-- However many clauses are inside clauses, one level is open in them. -/
theorem phrase_chain (k : Nat) : ∃ n, n ≤ 1 ∧ Phrase .atom (chainTokens k) (chain k) n := by
  induction k with
  | zero => exact ⟨0, Nat.zero_le 1, .empty⟩
  | succ k ih =>
    obtain ⟨n, hn, hphrase⟩ := ih
    have hname : Phrase .atom [.name "x"] (.name "x") 0 := .name (by decide)
    have hclause := Phrase.clause (show "a" ∉ _ by decide)
      hphrase.disjunction_of_atom .filtersNil
    have hchain := Phrase.comprehension hname.expr_of_atom (.clausesCons hclause .clausesNil)
    simp only [List.append_nil, List.cons_append, List.nil_append, Nat.max_zero] at hchain
    exact ⟨max 1 n, by omega, hchain⟩

theorem lt_depth_chain (k : Nat) : k < (chain k).depth := by
  induction k with
  | zero =>
    rw [depth_eq]
    exact Nat.succ_pos _
  | succ k ih =>
    have hmem : chain k ∈ (chain (k + 1)).children := by
      simp [chain, children, parts, clauseParts, Clause.items, Clause.filters]
    have hlt := depth_lt_of_mem_children hmem
    omega

/-- No bound holds for the depth of all accepted expressions. -/
theorem not_depth_bounded : ¬ ∃ bound, ∀ text e, parse text = .ok e → e.depth ≤ bound := by
  rintro ⟨bound, hbound⟩
  obtain ⟨n, hn, hphrase⟩ := phrase_chain bound
  have hparse := parse_spell (isWord_of_mem_chainTokens bound) hphrase.expr_of_atom
    (show n + 1 ≤ 64 by omega)
  have hdepth := hbound _ _ hparse
  have hlt := lt_depth_chain bound
  omega

end Expr

end Waypoints
