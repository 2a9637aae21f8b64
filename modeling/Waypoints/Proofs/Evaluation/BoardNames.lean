import Waypoints.Proofs.Evaluation.FreeNames
import Waypoints.Proofs.Number.SignOfZero
import Waypoints.Proofs.Parsing.Literals
/-!
# The names of the board

The evaluation looks a name up among the variables first and trusts the tree in what it does not
check. In an accepted expression no clause has a reserved name as its variable
(`Expr.wellFormed_of_parse`), and the variables in force at a place of a run are those of clauses of
the expression (`Visits.exists_clause`). So wherever a run comes to, the names of the board stand
for the place of the piece, the extent of the board and the wildcard (`Place.ReadsBoard`), and no
range has a wrong number of arguments there (`Expr.boardNames_shielded`).
-/

set_option autoImplicit false
set_option relaxedAutoImplicit false

namespace Waypoints

/-! ### Well-formed trees -/

/-- A tree that can be written down. The type of trees has others. -/
structure Expr.WellFormed (e : Expr) : Prop where
  range : ∀ args, e.Contains (.range args) → 1 ≤ args.length ∧ args.length ≤ 3
  comprehension : ∀ element clauses, e.Contains (.comprehension element clauses) → clauses ≠ []
  compare : ∀ first links, e.Contains (.compare first links) → links ≠ []
  name : ¬e.Contains (.name "range")
  number : ∀ value, e.Contains (.number value) → 0 ≤ value ∧ value.isNaN = false
  loopVar : ∀ element clauses, e.Contains (.comprehension element clauses) →
    ∀ c ∈ clauses, c.loopVar ∉ ["x", "y", "w", "h", "any", "range"]

theorem Expr.wellFormed_of_parse {text : String} {e : Expr} (h : parse text = .ok e) :
    e.WellFormed where
  range args hargs := by
    obtain ⟨hne, hle⟩ := everywhere_of_parse h _ hargs
    exact ⟨List.length_pos_iff.2 hne, hle⟩
  comprehension element clauses hclauses := (everywhere_of_parse h _ hclauses).1
  compare first links hlinks := everywhere_of_parse h _ hlinks
  name hname := everywhere_of_parse h _ hname rfl
  number value hvalue := by
    obtain ⟨d, rfl⟩ := everywhere_of_parse h _ hvalue
    exact ⟨Number.zero_le_of_hasSign d.hasSign_toFloat, d.hasSign_toFloat.isNaN_eq⟩
  loopVar element clauses hclauses := (everywhere_of_parse h _ hclauses).2

/-! ### The variables of a run -/

/-- A variable that a node binds for a child is the one of a clause of the node. -/
theorem Hole.exists_clause {hole : Hole} {word : String} (h : word ∈ hole.binds) (e : Expr) :
    ∃ element clauses, hole.fill e = .comprehension element clauses ∧
      ∃ c ∈ clauses, c.loopVar = word := by
  have hbound {clauses : List Clause} (h : word ∈ boundBy clauses) :
      ∃ c ∈ clauses, c.loopVar = word :=
    List.mem_map.1 (List.mem_reverse.1 h)
  cases hole with
  | comprehensionElement clauses => exact ⟨e, clauses, rfl, hbound h⟩
  | clauseItems element before loopVar filters after =>
    obtain ⟨c, hc, hword⟩ := hbound h
    exact ⟨element, _, rfl, c, List.mem_append_left _ hc, hword⟩
  | clauseFilter element before loopVar items earlier later after =>
    rcases List.mem_cons.1 h with rfl | h
    · exact ⟨element, _, rfl, _, List.mem_append_right _ List.mem_cons_self, rfl⟩
    · obtain ⟨c, hc, hword⟩ := hbound h
      exact ⟨element, _, rfl, c, List.mem_append_left _ hc, hword⟩
  | _ => cases h

/-- A variable in force in holes inside one another is the one of a clause of the expression. -/
theorem Expr.exists_clause {holes : List Hole} {word : String} (h : word ∈ scope holes) (e : Expr) :
    ∃ element clauses, (fillAll holes e).Contains (.comprehension element clauses) ∧
      ∃ c ∈ clauses, c.loopVar = word := by
  induction holes with
  | nil => cases h
  | cons hole holes ih =>
    rcases List.mem_append.1 h with h | h
    · obtain ⟨element, clauses, hcontains, hc⟩ := ih h
      exact ⟨element, clauses, .head (mem_children_fill hole _) hcontains, hc⟩
    · obtain ⟨element, clauses, hfill, hc⟩ := hole.exists_clause h (fillAll holes e)
      exact ⟨element, clauses, contains_iff.2 (.inl hfill), hc⟩

section Runs

variable {e : Expr} {b : Bindings} {q : Place}

/-- A variable in force at a place of a run is the one of a clause of the expression. -/
theorem Visits.exists_clause {word : String} (h : Visits (.start e b) q)
    (hword : word ∈ q.env.locals.map Prod.fst) :
    ∃ element clauses, e.Contains (.comprehension element clauses) ∧
      ∃ c ∈ clauses, c.loopVar = word := by
  obtain ⟨holes, added, rfl, hscope, henv⟩ := h.exists_holes
  rw [henv, Place.start, Env.ofBoard, List.append_nil, hscope] at hword
  exact Expr.exists_clause hword q.expr

theorem Visits.board_eq (h : Visits (.start e b) q) : q.env.board = b := by
  obtain ⟨holes, added, -, -, henv⟩ := h.exists_holes
  rw [henv]
  rfl

namespace Expr.WellFormed

/-- No variable in force at a place of a run has a reserved name. -/
theorem notMem_locals (he : e.WellFormed) (h : Visits (.start e b) q) {word : String}
    (hword : word ∈ reservedNames) : word ∉ q.env.locals.map Prod.fst := by
  intro hlocals
  obtain ⟨element, clauses, hcontains, c, hc, rfl⟩ := h.exists_clause hlocals
  exact he.loopVar element clauses hcontains c hc hword

/-- At a place of a run a reserved name stands for what the board binds. -/
theorem find_eq (he : e.WellFormed) (h : Visits (.start e b) q) {word : String}
    (hword : word ∈ reservedNames) : q.env.find word = b.find word := by
  rw [Env.find_of_notMem (he.notMem_locals h hword), h.board_eq]

/-- The outcome of a reserved name at a place of a run is what the board binds it to. -/
theorem eval_name (he : e.WellFormed) (h : Visits (.start e b) q) {word : String}
    (hword : word ∈ reservedNames) (hexpr : q.expr = .name word) :
    q.expr.eval q.env q.budget = (b.find word).map (·, q.budget) := by
  rw [hexpr, Expr.eval, he.find_eq h hword]
  cases b.find word <;> rfl

theorem not_find_rangeArity {env : Env} {word : String} : env.find word ≠ .error .rangeArity := by
  unfold Env.find
  split
  · exact nofun
  · unfold Bindings.find
    split_ifs <;> exact nofun

/-- No place of a run fails with a wrong number of arguments. -/
theorem not_fails_rangeArity (he : e.WellFormed) (h : Visits (.start e b) q) :
    ¬q.Fails .rangeArity := by
  intro hfails
  obtain ⟨r, hvisits, hraises⟩ := hfails.exists_origin rfl
  cases hraises with
  | name word _ hfind => exact not_find_rangeArity hfind
  | range args hexpr harity =>
    have hcontains := Visits.contains (Relation.ReflTransGen.trans h hvisits)
    rw [hexpr] at hcontains
    obtain ⟨hpos, hle⟩ := he.range args hcontains
    rcases harity with rfl | hlt
    · exact absurd hpos (by decide)
    · exact absurd hle (Nat.not_le.2 hlt)

end Expr.WellFormed

end Runs

/-- Which name of the board stands at a place, if one does, decides its outcome there: a number that
the bindings hold or, for `any`, a number that is none, unless wildcards are refused. -/
structure Place.ReadsBoard (b : Bindings) (q : Place) : Prop where
  x : q.expr = .name "x" → q.expr.eval q.env q.budget = .ok (.number b.x, q.budget)
  y : q.expr = .name "y" → q.expr.eval q.env q.budget = .ok (.number b.y, q.budget)
  w : q.expr = .name "w" → q.expr.eval q.env q.budget = .ok (.number b.w, q.budget)
  h : q.expr = .name "h" → q.expr.eval q.env q.budget = .ok (.number b.h, q.budget)
  any : q.expr = .name "any" → b.anyOk = true →
    ∃ nan, nan.isNaN = true ∧ q.expr.eval q.env q.budget = .ok (.number nan, q.budget)
  any_refused : q.expr = .name "any" → b.anyOk = false →
    q.expr.eval q.env q.budget = .error .wildcardNotAllowed

theorem Expr.WellFormed.readsBoard {e : Expr} {b : Bindings} {q : Place} (he : e.WellFormed)
    (hq : Visits (.start e b) q) : q.ReadsBoard b where
  x := he.eval_name hq (by decide)
  y := he.eval_name hq (by decide)
  w := he.eval_name hq (by decide)
  h := he.eval_name hq (by decide)
  any hexpr hok := by
    refine ⟨wildcard, rfl, (he.eval_name hq (by decide) hexpr).trans ?_⟩
    simp only [Bindings.find, hok]
    rfl
  any_refused hexpr hok := by
    refine (he.eval_name hq (by decide) hexpr).trans ?_
    simp only [Bindings.find, hok]
    rfl

namespace Expr

/-- The tree of an accepted text is well formed. So wherever its evaluation comes to, no variable in
force has a reserved name, and every name of the board that stands there has the outcome that the
bindings give it. No step fails with a wrong number of arguments of a range; so neither does the
evaluation of the expression or that of its formula for any piece.

Assumes: the text is accepted. -/
theorem boardNames_shielded {text : String} {e : Expr} (h : parse text = .ok e) :
    e.WellFormed ∧
      (∀ b q, Visits (.start e b) q →
        (∀ word ∈ ["x", "y", "w", "h", "any", "range"], word ∉ q.env.locals.map Prod.fst) ∧
        q.ReadsBoard b ∧ ¬q.Fails .rangeArity) ∧
      (∀ b, e.evaluate b ≠ .error .rangeArity) ∧
      ∀ frame position board anyOk source, Formula.worldPaths ⟨text, e, h⟩ frame position board
        anyOk ≠ .error ⟨source, .failed .rangeArity⟩ := by
  have he := wellFormed_of_parse h
  have hevaluate (b : Bindings) : e.evaluate b ≠ .error .rangeArity := fun hb ↦
    he.not_fails_rangeArity .refl (evaluate_eq_error_iff.1 hb)
  exact ⟨he, fun b q hq ↦ ⟨fun word ↦ he.notMem_locals hq, he.readsBoard hq,
    he.not_fails_rangeArity hq⟩, hevaluate, fun frame position board anyOk source hpaths ↦
    hevaluate _ (Formula.evaluate_of_worldPaths _ hpaths)⟩

/-- The tree of `[(i, y) for i in range(1, x) if i < w]`. -/
def sweepExpr : Expr :=
  .comprehension (.tuple [.name "i", .name "y"])
    [.mk "i" (.range [.number (Decimal.toFloat ⟨1, 0⟩), .name "x"])
      [.compare (.name "i") [.mk .lt (.name "w")]]]

/-- A text with a clause, a range, a comparison and names of the board. -/
theorem boardNames_shielded_sweep :
    parse "[(i, y) for i in range(1, x) if i < w]" = .ok sweepExpr ∧ sweepExpr.WellFormed ∧
      ∀ b, sweepExpr.evaluate b ≠ .error .rangeArity := by
  have hparse : parse "[(i, y) for i in range(1, x) if i < w]" = .ok sweepExpr := by
    have hls : lexemes 0 "[(i, y) for i in range(1, x) if i < w]".toList = .ok
        [⟨.mark .bracketOpen, 0⟩, ⟨.mark .parenOpen, 1⟩, ⟨.name "i", 2⟩, ⟨.mark .comma, 3⟩,
          ⟨.name "y", 5⟩, ⟨.mark .parenClose, 6⟩, ⟨.mark .kwFor, 8⟩, ⟨.name "i", 12⟩,
          ⟨.mark .kwIn, 14⟩, ⟨.name "range", 17⟩, ⟨.mark .parenOpen, 22⟩,
          ⟨.number (Decimal.toFloat ⟨1, 0⟩), 23⟩, ⟨.mark .comma, 24⟩, ⟨.name "x", 26⟩,
          ⟨.mark .parenClose, 27⟩, ⟨.mark .kwIf, 29⟩, ⟨.name "i", 32⟩, ⟨.mark .less, 34⟩,
          ⟨.name "w", 36⟩, ⟨.mark .bracketClose, 37⟩] := by
      decide +kernel
    rw [parse, hls, sweepExpr]
    generalize Decimal.toFloat ⟨1, 0⟩ = one
    cbv
  obtain ⟨hwellFormed, -, hevaluate, -⟩ := boardNames_shielded hparse
  exact ⟨hparse, hwellFormed, hevaluate⟩

end Expr

end Waypoints
