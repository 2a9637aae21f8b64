import Waypoints.Proofs.Evaluation.Places
import Waypoints.Proofs.Parsing.Language
/-!
# What copies of variables cost

A tuple or a list that names a variable copies its value, and no copy is paid for. So the values of
a run weigh at most the budget and the nodes of the text if no footprint exceeds the nodes, which is
certain exactly where every variable is a single value (`visited_weight_le`). Elsewhere clauses can
double the weight of a variable without end (`not_handled_weight_le`).
-/

set_option autoImplicit false
set_option relaxedAutoImplicit false

namespace Waypoints

/-- The values of the run from a place: those that its evaluations return and those that its
variables are bound to. -/
inductive Place.Handles (p : Place) : Value → Prop
  | returned {q : Place} {v : Value} {left : Nat} : Visits p q → q.Returns v left → p.Handles v
  | bound {q : Place} {word : String} {v : Value} :
    Visits p q → (word, v) ∈ q.env.locals → p.Handles v

/-! ### Copies -/

namespace Expr

section Copies

variable {env : Env} {b : Nat}

theorem eval_name {word : String} {v : Value} (h : env.locals.lookup word = some v) :
    (name word).eval env b = .ok (v, b) := by
  rw [eval, Env.find, h]
  rfl

theorem evalAll_cons {e : Expr} {es : List Expr} {v : Value} {vs : List Value} {b' b'' : Nat}
    (he : e.eval env b = .ok (v, b')) (hes : evalAll es env b' = .ok (vs, b'')) :
    evalAll (e :: es) env b = .ok (v :: vs, b'') := by
  rw [evalAll, StateT.bind_of_ok he, StateT.bind_of_ok hes]
  rfl

theorem evalAll_replicate {e : Expr} {v : Value} (h : e.eval env b = .ok (v, b)) (n : Nat) :
    evalAll (List.replicate n e) env b = .ok (List.replicate n v, b) := by
  induction n with
  | zero => rfl
  | succ n ih => exact evalAll_cons h ih

theorem eval_tuple {items : List Expr} {vs : List Value} {b' : Nat}
    (h : evalAll items env b = .ok (vs, b')) : (tuple items).eval env b = .ok (.tuple vs, b') := by
  rw [eval, StateT.bind_of_ok h]
  rfl

theorem eval_list {items : List Expr} {vs : List Value} {b' : Nat}
    (h : evalAll items env b = .ok (vs, b')) : (list items).eval env b = .ok (.list vs, b') := by
  rw [eval, StateT.bind_of_ok h]
  rfl

/-- A variable that is no single value has copies that outweigh every allowance. -/
theorem exists_lt_weight {word : String} {v : Value} (h : env.locals.lookup word = some v)
    (hv : v.weight ≠ 1) (m : Nat) :
    ∃ e v left, eval e env b = .ok (v, left) ∧ m + e.size < v.weight := by
  refine ⟨_, _, _, eval_tuple (evalAll_replicate (eval_name h) (m + 1)), ?_⟩
  have hone := v.one_le_weight
  have hsize : (tuple (List.replicate (m + 1) (name word))).size = m + 1 + 1 := by
    rw [size_tuple, List.map_replicate, List.sum_replicate_nat, size_name, Nat.mul_one]
  have hweight : (Value.tuple (List.replicate (m + 1) v)).weight = (m + 1) * v.weight + 1 := by
    rw [Value.weight, Value.totalWeight_eq_sum, List.map_replicate, List.sum_replicate_nat]
  have hmul : (m + 1) * 2 ≤ (m + 1) * v.weight := Nat.mul_le_mul_left _ (by omega)
  omega

end Copies

end Expr

/-- The allowance of the budget and of the nodes holds for all expressions in an environment if and
only if the variables are single values. -/
theorem Env.single_iff {env : Env} {b : Nat} (hb : b ≤ maxValues) :
    (∀ e v left, Expr.eval e env b = .ok (v, left) → v.weight ≤ maxValues + e.size) ↔
      env.Single := by
  constructor
  · intro hall word v h
    by_contra hv
    obtain ⟨e, v', left, heval, hlt⟩ := Expr.exists_lt_weight (b := b) h hv maxValues
    exact absurd (hall e v' left heval) (Nat.not_le_of_lt hlt)
  · intro henv e v left heval
    exact (Expr.weight_le_of_single henv heval).trans (Nat.add_le_add_right hb e.size)

/-- A value of a run weighs at most what was spent on it and the footprint of its expression; so if
no footprint is greater than the number of nodes of the whole expression, then no value of the run
weighs more than the budget and these nodes. An environment guarantees this for every expression
exactly if its variables are single values. -/
theorem visited_weight_le (e : Expr) (b : Bindings) :
    (∀ q, Visits (.start e b) q → ∀ v left, q.Returns v left →
      v.weight + left ≤ q.budget + q.expr.footprint q.env) ∧
    ((∀ q, Visits (.start e b) q → q.expr.footprint q.env ≤ e.size) →
      ∀ v, (Place.start e b).Handles v → v.weight ≤ 65536 + e.size) ∧
    ∀ q, Visits (.start e b) q → (q.env.Single → q.expr.footprint q.env ≤ e.size) ∧
      ((∀ e' v left, Expr.eval e' q.env q.budget = .ok (v, left) →
        v.weight ≤ 65536 + e'.size) ↔ q.env.Single) := by
  have hlaw (q : Place) (v : Value) (left : Nat) (hv : q.Returns v left) :
      v.weight + left ≤ q.budget + q.expr.footprint q.env :=
    ((q.expr.charges_eval q.env).of_eq_ok hv).2
  refine ⟨fun q _ v left hv ↦ hlaw q v left hv, ?_, ?_⟩
  · intro hfootprint v hv
    have hreturned (q : Place) (hq : Visits (.start e b) q) (w : Value) (left : Nat)
        (hw : q.Returns w left) : w.weight ≤ 65536 + e.size := by
      have hweight := hlaw q w left hw
      have hbudget : q.budget ≤ 65536 := hq.budget_le
      have hle := hfootprint q hq
      omega
    cases hv with
    | returned hq hreturns => exact hreturned _ hq _ _ hreturns
    | bound hq hentry =>
      rcases hq.weight_lt _ hentry with hnil | ⟨r, w, left, hr, hreturns, hlt⟩
      · cases hnil
      · exact hlt.le.trans (hreturned r hr w left hreturns)
  · intro q hq
    refine ⟨fun hsingle ↦ ?_, Env.single_iff hq.budget_le⟩
    exact (Expr.footprint_le_size hsingle q.expr).trans hq.size_le

/-! ### Doubled variables -/

/-- `(p, q)`. -/
def pair (p q : String) : Expr :=
  .tuple [.name p, .name q]

/-- The tokens of `(p, q)`. -/
def pairTokens (p q : String) : List Token :=
  [.mark .parenOpen, .name p, .mark .comma, .name q, .mark .parenClose]

/-- `for a in [(p, q)]`. -/
def pairClause (p q : String) : Clause :=
  .mk "a" (.list [pair p q]) []

/-- The tokens of `for a in [(p, q)]`. -/
def clauseTokens (p q : String) : List Token :=
  .mark .kwFor :: .name "a" :: .mark .kwIn :: .mark .bracketOpen ::
    (pairTokens p q ++ [.mark .bracketClose])

/-- `[(x, y) for a in [(x, y)] for a in [(a, a)] … ]`, with `k` copies of the second clause. -/
def doubling (k : Nat) : Expr :=
  .comprehension (pair "x" "y") (pairClause "x" "y" :: List.replicate k (pairClause "a" "a"))

/-- The tokens of such an expression. -/
def doublingTokens (k : Nat) : List Token :=
  .mark .bracketOpen :: (pairTokens "x" "y" ++ (clauseTokens "x" "y" ++
    (List.replicate k (clauseTokens "a" "a")).flatten ++ [.mark .bracketClose]))

theorem phrase_pair {p q : String} (hp : p ≠ "range") (hq : q ≠ "range") :
    Phrase .expr (pairTokens p q) (pair p q) 2 := by
  have hitems := Phrase.last (Phrase.expr_of_atom (.name hq))
  have hpair := Phrase.tuple (Phrase.expr_of_atom (.name hp)) hitems
  exact hpair.expr_of_atom

theorem phrase_pairClause {p q : String} (hp : p ≠ "range") (hq : q ≠ "range") :
    Phrase .clause (clauseTokens p q) (pairClause p q) 2 := by
  have hlist := Phrase.list (.last (phrase_pair hp hq))
  have hclause := Phrase.clause (show "a" ∉ _ by decide) hlist.disjunction_of_atom
    .filtersNil
  rwa [List.append_nil] at hclause

theorem phrase_copies (k : Nat) : ∃ n, n ≤ 2 ∧
    Phrase .clauses (List.replicate k (clauseTokens "a" "a")).flatten
      (List.replicate k (pairClause "a" "a")) n := by
  induction k with
  | zero => exact ⟨0, Nat.zero_le 2, .clausesNil⟩
  | succ k ih =>
    obtain ⟨n, hn, hphrase⟩ := ih
    have hclause := phrase_pairClause (show "a" ≠ "range" by decide) (show "a" ≠ "range" by decide)
    exact ⟨max 2 n, by omega, .clausesCons hclause hphrase⟩

theorem isWord_of_mem_doublingTokens (k : Nat) : ∀ t ∈ doublingTokens k, t.IsWord := by
  have hpair : ∀ t ∈ pairTokens "x" "y", t.IsWord := by decide
  have hfirst : ∀ t ∈ clauseTokens "x" "y", t.IsWord := by decide
  have hcopy : ∀ t ∈ clauseTokens "a" "a", t.IsWord := by decide
  intro t ht
  simp only [doublingTokens, List.mem_cons, List.mem_append, List.mem_flatten, List.not_mem_nil,
    or_false] at ht
  rcases ht with rfl | ht | (ht | ⟨row, hrow, ht⟩) | rfl
  · trivial
  · exact hpair t ht
  · exact hfirst t ht
  · rw [List.eq_of_mem_replicate hrow] at ht
    exact hcopy t ht
  · trivial

theorem parse_doubling (k : Nat) :
    Expr.parse (String.ofList (spell (doublingTokens k))) = .ok (doubling k) := by
  obtain ⟨n, hn, hcopies⟩ := phrase_copies k
  have hx : "x" ≠ "range" := by decide
  have hy : "y" ≠ "range" := by decide
  have hphrase := Phrase.comprehension (phrase_pair hx hy)
    (.clausesCons (phrase_pairClause hx hy) hcopies)
  exact Expr.parse_spell (isWord_of_mem_doublingTokens k) hphrase.expr_of_atom
    (show max 2 (max 2 n) + 1 ≤ 64 by omega)

theorem size_pair (p q : String) : (pair p q).size = 3 := by
  rw [pair, Expr.size_tuple]
  simp [Expr.size_name]

theorem size_pairClause (p q : String) : (pairClause p q).items.size = 4 := by
  rw [pairClause, Clause.items, Expr.size_list]
  simp [size_pair]

theorem size_doubling (k : Nat) : (doubling k).size = 4 * k + 8 := by
  have hcopies : (((List.replicate k (pairClause "a" "a")).flatMap
      fun c ↦ c.items :: c.filters).map Expr.size).sum = 4 * k := by
    induction k with
    | zero => rfl
    | succ k ih =>
      rw [List.replicate_succ, List.flatMap_cons, List.map_append, List.sum_append, ih]
      change (pairClause "a" "a").items.size + 0 + 4 * k = 4 * (k + 1)
      rw [size_pairClause]
      omega
  rw [Expr.size_eq, doubling, Expr.children, Expr.parts, Expr.clauseParts, List.flatMap_cons]
  simp only [List.map_append, List.sum_append, hcopies]
  change (pair "x" "y").size + 0 + ((pairClause "x" "y").items.size + 0 + 4 * k) + 1 = 4 * k + 8
  rw [size_pair, size_pairClause]
  omega

theorem eval_pairClause {env : Env} {b : Nat} {p q : String} {v w : Value}
    (hp : (Expr.name p).eval env b = .ok (v, b)) (hq : (Expr.name q).eval env b = .ok (w, b)) :
    (pairClause p q).items.eval env b = .ok (.list [.tuple [v, w]], b) :=
  Expr.eval_list (Expr.evalAll_cons (Expr.eval_tuple (Expr.evalAll_cons hp
    (Expr.evalAll_cons hq rfl))) rfl)

/-- A clause that copies a variable comes to the pair of its copies. -/
theorem reaches_pairClause {element : Expr} {clauses : List Clause} {env : Env} {b : Nat}
    {p q : String} {v w : Value} (hp : (Expr.name p).eval env b = .ok (v, b))
    (hq : (Expr.name q).eval env b = .ok (w, b)) :
    Reaches element (pairClause p q) clauses env b (.tuple [v, w]) b :=
  ⟨_, b, [], [], [], eval_pairClause hp hq, rfl, rfl⟩

/-- Each clause that copies a variable doubles its weight. -/
theorem exists_heavy_call (element : Expr) (k : Nat) {env : Env} {b : Nat} {v : Value}
    (h : env.locals.lookup "a" = some v) :
    ∃ q w left, ClauseCalls element (List.replicate (k + 1) (pairClause "a" "a")) env b q ∧
      q.Returns w left ∧ 2 ^ (k + 1) * v.weight ≤ w.weight := by
  have hname := Expr.eval_name (b := b) h
  induction k generalizing env v with
  | zero =>
    refine ⟨_, _, b, .items, eval_pairClause hname hname, ?_⟩
    simp only [Value.weight, Value.totalWeight]
    omega
  | succ k ih =>
    have hbound : (env.bind "a" (.tuple [v, v])).locals.lookup "a" = some (.tuple [v, v]) :=
      List.lookup_cons_self
    obtain ⟨q, w, left, hcalls, hreturns, hle⟩ := ih hbound (Expr.eval_name hbound)
    refine ⟨q, w, left, .inner (reaches_pairClause hname hname) rfl hcalls, hreturns, ?_⟩
    calc 2 ^ (k + 1 + 1) * v.weight = 2 ^ (k + 1) * (2 * v.weight) := by
          rw [Nat.pow_succ, Nat.mul_assoc]
      _ ≤ 2 ^ (k + 1) * (Value.tuple [v, v]).weight := by
          refine Nat.mul_le_mul_left _ ?_
          simp only [Value.weight, Value.totalWeight]
          omega
      _ ≤ w.weight := hle

/-- The allowance does not hold for all values of all runs. -/
theorem not_handled_weight_le : ¬ ∀ text e b, Expr.parse text = .ok e →
    ∀ v, (Place.start e b).Handles v → v.weight ≤ 65536 + e.size := by
  intro hall
  obtain ⟨b⟩ : Nonempty Bindings := ⟨⟨2, 3, 8, 8, false⟩⟩
  have hbound : ((Env.ofBoard b).bind "a" (.tuple [.number b.x, .number b.y])).locals.lookup "a" =
    some (.tuple [.number b.x, .number b.y]) := List.lookup_cons_self
  obtain ⟨q, w, left, hcalls, hreturns, hle⟩ :=
    exists_heavy_call (b := maxValues) (pair "x" "y") 15 hbound
  have hvisits : Visits (.start (doubling 16) b) q :=
    .single (.comprehension (.inner (reaches_pairClause rfl rfl) rfl hcalls))
  have hweight := hall _ _ b (parse_doubling 16) w (.returned hvisits hreturns)
  rw [size_doubling] at hweight
  have hthree : (Value.tuple [.number b.x, .number b.y]).weight = 3 := rfl
  rw [hthree] at hle
  have hmax : maxValues = 65536 := rfl
  omega

end Waypoints
