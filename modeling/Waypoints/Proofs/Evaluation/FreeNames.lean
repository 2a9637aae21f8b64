import Waypoints.Proofs.Evaluation.Faults
import Waypoints.Proofs.Evaluation.Scoping
import Waypoints.Proofs.Evaluation.Copies
/-!
# Free names

A name is free at a place of an expression if no clause around the place has it as the variable in
force there; `Expr.freeNames` computes the names that are free somewhere (`Expr.mem_freeNames_iff`).
Wherever an evaluation comes to, exactly the variables of the clauses around that place are in force
(`Calls.exists_hole`, `Visits.exists_holes`). So an evaluation fails with an unknown name exactly if
it comes to a place at which the name is free and the board does not bind it, and an expression
whose free names are the board's has no unknown name (`Expr.unknownName_iff_free`).
-/

set_option autoImplicit false
set_option relaxedAutoImplicit false

namespace Waypoints

/-- The names that the board binds. -/
def boardNames : List String :=
  ["x", "y", "w", "h", "any"]

theorem Bindings.find_eq_unknownName_iff {b : Bindings} {word word' : String} :
    b.find word = .error (.unknownName word') ↔ word' = word ∧ word ∉ boardNames := by
  simp only [boardNames, List.mem_cons, List.not_mem_nil, or_false, not_or]
  unfold Bindings.find
  split_ifs with hx hy hw hh hany hok
  · exact ⟨nofun, fun h ↦ absurd hx h.2.1⟩
  · exact ⟨nofun, fun h ↦ absurd hy h.2.2.1⟩
  · exact ⟨nofun, fun h ↦ absurd hw h.2.2.2.1⟩
  · exact ⟨nofun, fun h ↦ absurd hh h.2.2.2.2.1⟩
  · exact ⟨nofun, fun h ↦ absurd hany h.2.2.2.2.2⟩
  · exact ⟨nofun, fun h ↦ absurd hany h.2.2.2.2.2⟩
  · constructor
    · intro h
      exact ⟨(EvalFault.unknownName.inj (Except.error.inj h)).symm, hx, hy, hw, hh, hany⟩
    · rintro ⟨rfl, -⟩
      rfl

theorem Env.find_eq_unknownName_iff {env : Env} {word word' : String} :
    env.find word = .error (.unknownName word') ↔
      word' = word ∧ word ∉ boardNames ∧ word ∉ env.locals.map Prod.fst := by
  by_cases hword : word ∈ env.locals.map Prod.fst
  · obtain ⟨v, hv⟩ : ∃ v, env.locals.lookup word = some v := by
      obtain ⟨entry, hentry, rfl⟩ := List.mem_map.1 hword
      refine Option.ne_none_iff_exists'.1 fun hnone ↦ ?_
      exact absurd (List.lookup_eq_none_iff.1 hnone entry hentry) (by simp)
    rw [find, hv]
    refine iff_of_false (fun h ↦ ?_) fun h ↦ h.2.2 hword
    cases h
  · rw [find_of_notMem hword, Bindings.find_eq_unknownName_iff]
    refine and_congr_right fun _ ↦ ?_
    exact (and_iff_left hword).symm

/-! ### The variables in force -/

section Places

variable {p q : Place}

theorem RowCalls.exists_append {goes : Value → Bool} {env : Env} {es : List Expr} {b : Nat}
    (h : RowCalls goes env es b q) : ∃ before after, es = before ++ q.expr :: after :=
  List.append_of_mem h.mem

/-- What the clauses of a comprehension call is evaluated with the variables of the clauses before
it, and for a condition also with the one of its own clause. -/
theorem ClauseCalls.exists_hole {element : Expr} {clauses : List Clause} {env : Env} {b : Nat}
    (h : ClauseCalls element clauses env b q) (before : List Clause) :
    ∃ (hole : Hole) (added : List (String × Value)),
      hole.fill q.expr = .comprehension element (before ++ clauses) ∧
      hole.binds = added.map Prod.fst ++ boundBy before ∧
      q.env = ⟨env.board, added ++ env.locals⟩ := by
  induction h generalizing before with
  | element =>
    refine ⟨.comprehensionElement before, [], ?_, rfl, rfl⟩
    rw [List.append_nil]
    rfl
  | @items c clauses env b =>
    obtain ⟨loopVar, items, filters⟩ := c
    exact ⟨.clauseItems element before loopVar filters clauses, [], rfl, rfl, rfl⟩
  | @filter c clauses env b b' item p _ hrow =>
    obtain ⟨loopVar, items, filters⟩ := c
    obtain ⟨earlier, later, hfilters⟩ := hrow.exists_append
    obtain rfl : filters = earlier ++ p.expr :: later := hfilters
    exact ⟨.clauseFilter element before loopVar items earlier later clauses, [(loopVar, item)], rfl,
      rfl, hrow.env_eq⟩
  | @inner c clauses env b b' b'' item p _ _ _ ih =>
    obtain ⟨hole, added, hfill, hbinds, henv⟩ := ih (before ++ [c])
    refine ⟨hole, added ++ [(c.loopVar, item)], ?_, ?_, ?_⟩
    · rw [hfill, List.append_assoc, List.singleton_append]
    · rw [hbinds, boundBy, List.map_append, List.reverse_append, List.map_append, List.append_assoc]
      rfl
    · rw [henv, List.append_assoc]
      rfl

/-- What a place calls stands in a hole of its expression, and is evaluated with the variables that
the hole binds and those of the place. -/
theorem Calls.exists_hole (h : Calls p q) : ∃ (hole : Hole) (added : List (String × Value)),
    hole.fill q.expr = p.expr ∧ added.map Prod.fst = hole.binds ∧
      q.env = ⟨p.env.board, added ++ p.env.locals⟩ := by
  cases h with
  | @unary op => exact ⟨.unary op, [], rfl, rfl, rfl⟩
  | @binary op lhs rhs env b q hrow =>
    rcases rowCalls_pair_iff.1 hrow with rfl | ⟨v, b', -, -, rfl⟩
    · exact ⟨.binaryLeft op rhs, [], rfl, rfl, rfl⟩
    · exact ⟨.binaryRight op lhs, [], rfl, rfl, rfl⟩
  | @compareFirst first links => exact ⟨.compareFirst links, [], rfl, rfl, rfl⟩
  | @compareLinks first links env b b' v q _ hlinks =>
    obtain ⟨⟨op, operand⟩, hl, hoperand⟩ := List.mem_map.1 hlinks.mem
    obtain ⟨before, after, rfl⟩ := List.append_of_mem hl
    obtain rfl : operand = q.expr := hoperand
    exact ⟨.compareLink first before op after, [], rfl, rfl, hlinks.env_eq⟩
  | @logic op lhs rhs env b q hrow =>
    rcases rowCalls_pair_iff.1 hrow with rfl | ⟨v, b', -, -, rfl⟩
    · exact ⟨.logicLeft op rhs, [], rfl, rfl, rfl⟩
    · exact ⟨.logicRight op lhs, [], rfl, rfl, rfl⟩
  | @condition value condition otherwise =>
    exact ⟨.conditionalCondition value otherwise, [], rfl, rfl, rfl⟩
  | @branch value condition otherwise env b b' v _ =>
    dsimp only
    split
    · exact ⟨.conditionalValue condition otherwise, [], rfl, rfl, rfl⟩
    · exact ⟨.conditionalOtherwise value condition, [], rfl, rfl, rfl⟩
  | tuple hrow =>
    obtain ⟨before, after, rfl⟩ := hrow.exists_append
    exact ⟨.tuple before after, [], rfl, rfl, hrow.env_eq⟩
  | list hrow =>
    obtain ⟨before, after, rfl⟩ := hrow.exists_append
    exact ⟨.list before after, [], rfl, rfl, hrow.env_eq⟩
  | comprehension hclauses =>
    obtain ⟨hole, added, hfill, hbinds, henv⟩ := hclauses.exists_hole []
    exact ⟨hole, added, hfill, by rw [hbinds, boundBy, List.map_nil, List.reverse_nil,
      List.append_nil], henv⟩
  | range hrow =>
    obtain ⟨before, after, rfl⟩ := hrow.exists_append
    exact ⟨.range before after, [], rfl, rfl, hrow.env_eq⟩

/-- Wherever a run comes to, the variables in force are those of the clauses around that place and
those of the start. -/
theorem Visits.exists_holes (h : Visits p q) :
    ∃ (holes : List Hole) (added : List (String × Value)), Expr.fillAll holes q.expr = p.expr ∧
      added.map Prod.fst = Expr.scope holes ∧ q.env = ⟨p.env.board, added ++ p.env.locals⟩ := by
  induction h using Relation.ReflTransGen.head_induction_on with
  | refl => exact ⟨[], [], rfl, rfl, rfl⟩
  | head hcalls _ ih =>
    obtain ⟨hole, outer, hfill, houter, henv⟩ := hcalls.exists_hole
    obtain ⟨holes, inner, hfillAll, hinner, henv'⟩ := ih
    refine ⟨hole :: holes, inner ++ outer, ?_, ?_, ?_⟩
    · rw [Expr.fillAll, hfillAll, hfill]
    · rw [List.map_append, hinner, houter, Expr.scope]
    · rw [henv', henv, List.append_assoc]

end Places

/-! ### The names that are free in an expression -/

namespace Expr

mutual

/-- The names of an expression that are free at one of their places. -/
def freeNames : Expr → List String
  | number _ => []
  | name word => [word]
  | unary _ operand => freeNames operand
  | binary _ lhs rhs => freeNames lhs ++ freeNames rhs
  | compare first links => freeNames first ++ linkFreeNames links
  | logic _ lhs rhs => freeNames lhs ++ freeNames rhs
  | conditional value condition otherwise =>
    freeNames value ++ (freeNames condition ++ freeNames otherwise)
  | tuple items => rowFreeNames items
  | list items => rowFreeNames items
  | comprehension element clauses => clauseFreeNames (freeNames element) clauses
  | range args => rowFreeNames args

/-- The free names of a row of expressions. -/
def rowFreeNames : List Expr → List String
  | [] => []
  | e :: es => freeNames e ++ rowFreeNames es

/-- The free names of a chain of comparisons. -/
def linkFreeNames : List Link → List String
  | [] => []
  | .mk _ operand :: links => freeNames operand ++ linkFreeNames links

/-- The free names of clauses around something with the free names `inner`. The variable of a clause
is bound in its conditions, in the later clauses and in what these are around. -/
def clauseFreeNames (inner : List String) : List Clause → List String
  | [] => inner
  | .mk loopVar items filters :: clauses =>
    freeNames items ++
      (rowFreeNames filters ++ clauseFreeNames inner clauses).filter (· ≠ loopVar)

end

section Rows

variable {word : String}

theorem mem_rowFreeNames {es : List Expr} :
    word ∈ rowFreeNames es ↔ ∃ e ∈ es, word ∈ e.freeNames := by
  induction es with
  | nil => simp only [rowFreeNames, List.not_mem_nil, false_and, exists_false]
  | cons e es ih => simp only [rowFreeNames, List.mem_append, ih, List.exists_mem_cons_iff]

theorem mem_linkFreeNames {links : List Link} :
    word ∈ linkFreeNames links ↔ ∃ l ∈ links, word ∈ l.operand.freeNames := by
  induction links with
  | nil => simp only [linkFreeNames, List.not_mem_nil, false_and, exists_false]
  | cons l links ih =>
    obtain ⟨op, operand⟩ := l
    simp only [linkFreeNames, List.mem_append, ih, List.exists_mem_cons_iff, Link.operand]

/-- A name is free in a clause where the variables of the clauses before it do not bind it: in what
the clause runs over, or in a condition if the clause does not bind it itself. -/
def FreeInClause (word : String) (before : List Clause) (c : Clause) : Prop :=
  word ∉ boundBy before ∧ (word ∈ c.items.freeNames ∨
    word ≠ c.loopVar ∧ ∃ e ∈ c.filters, word ∈ e.freeNames)

theorem notMem_boundBy_cons {c : Clause} {clauses : List Clause} :
    word ∉ boundBy (c :: clauses) ↔ word ≠ c.loopVar ∧ word ∉ boundBy clauses := by
  simp only [boundBy, List.map_cons, List.mem_reverse, List.mem_cons, not_or]

theorem mem_clauseFreeNames {inner : List String} {clauses : List Clause} :
    word ∈ clauseFreeNames inner clauses ↔ word ∈ inner ∧ word ∉ boundBy clauses ∨
      ∃ before c after, clauses = before ++ c :: after ∧ FreeInClause word before c := by
  induction clauses with
  | nil =>
    constructor
    · exact fun h ↦ .inl ⟨h, List.not_mem_nil⟩
    · rintro (⟨h, -⟩ | ⟨before, c, after, hnil, -⟩)
      · exact h
      · exact absurd hnil.symm (by simp)
  | cons c clauses ih =>
    obtain ⟨loopVar, items, filters⟩ := c
    rw [clauseFreeNames, List.mem_append, List.mem_filter, List.mem_append, decide_eq_true_eq, ih,
      mem_rowFreeNames]
    constructor
    · rintro (h | ⟨h | ⟨hinner, hbound⟩ | ⟨before, c, after, rfl, hbefore, hc⟩, hvar⟩)
      · exact .inr ⟨[], _, clauses, rfl, List.not_mem_nil, .inl h⟩
      · exact .inr ⟨[], _, clauses, rfl, List.not_mem_nil, .inr ⟨hvar, h⟩⟩
      · exact .inl ⟨hinner, notMem_boundBy_cons.2 ⟨hvar, hbound⟩⟩
      · exact .inr ⟨_ :: before, c, after, rfl, notMem_boundBy_cons.2 ⟨hvar, hbefore⟩, hc⟩
    · rintro (⟨hinner, hbound⟩ | ⟨before, c, after, hclauses, hbefore, hc⟩)
      · obtain ⟨hvar, hbound⟩ := notMem_boundBy_cons.1 hbound
        exact .inr ⟨.inr (.inl ⟨hinner, hbound⟩), hvar⟩
      · cases before with
        | nil =>
          obtain ⟨rfl, rfl⟩ := List.cons.inj hclauses
          exact hc.imp id fun ⟨hvar, hfilters⟩ ↦ ⟨.inl hfilters, hvar⟩
        | cons c' before =>
          obtain ⟨rfl, rfl⟩ := List.cons.inj hclauses
          obtain ⟨hvar, hbefore⟩ := notMem_boundBy_cons.1 hbefore
          exact .inr ⟨.inr (.inr ⟨before, c, after, rfl, hbefore, hc⟩), hvar⟩

end Rows

theorem mem_children_fill (hole : Hole) (e : Expr) : e ∈ (hole.fill e).children := by
  cases hole <;> simp [Hole.fill, children, parts, clauseParts, Link.operand, Clause.items,
    Clause.filters]

/-- What is free in a child and not bound by its node is free in the node. -/
theorem mem_freeNames_fill {word : String} {e : Expr} (hole : Hole) (h : word ∈ e.freeNames)
    (hbinds : word ∉ hole.binds) : word ∈ (hole.fill e).freeNames := by
  cases hole with
  | unary op => exact h
  | binaryLeft op rhs => exact List.mem_append_left _ h
  | binaryRight op lhs => exact List.mem_append_right _ h
  | compareFirst links => exact List.mem_append_left _ h
  | compareLink first before op after =>
    refine List.mem_append_right _ (mem_linkFreeNames.2 ⟨.mk op e, ?_, h⟩)
    exact List.mem_append_right _ List.mem_cons_self
  | logicLeft op rhs => exact List.mem_append_left _ h
  | logicRight op lhs => exact List.mem_append_right _ h
  | conditionalValue condition otherwise => exact List.mem_append_left _ h
  | conditionalCondition value otherwise =>
    exact List.mem_append_right _ (List.mem_append_left _ h)
  | conditionalOtherwise value condition =>
    exact List.mem_append_right _ (List.mem_append_right _ h)
  | tuple before after | list before after | range before after =>
    exact mem_rowFreeNames.2 ⟨e, List.mem_append_right _ List.mem_cons_self, h⟩
  | comprehensionElement clauses => exact mem_clauseFreeNames.2 (.inl ⟨h, hbinds⟩)
  | clauseItems element before loopVar filters after =>
    exact mem_clauseFreeNames.2 (.inr ⟨before, _, after, rfl, hbinds, .inl h⟩)
  | clauseFilter element before loopVar items earlier later after =>
    obtain ⟨hvar, hbefore⟩ := not_or.1 (fun hmem ↦ hbinds (List.mem_cons.2 hmem))
    refine mem_clauseFreeNames.2 (.inr ⟨before, _, after, rfl, hbefore, .inr ⟨hvar, e, ?_, h⟩⟩)
    exact List.mem_append_right _ List.mem_cons_self

/-- A name that is free in a node is the node or free in a child whose place does not bind it. -/
theorem exists_fill_of_mem_freeNames {word : String} {e : Expr} (h : word ∈ e.freeNames) :
    e = name word ∨ ∃ (hole : Hole) (c : Expr), hole.fill c = e ∧ word ∈ c.freeNames ∧
      word ∉ hole.binds := by
  cases e with
  | number value => cases h
  | name word' =>
    obtain rfl := List.mem_singleton.1 h
    exact .inl rfl
  | unary op operand => exact .inr ⟨.unary op, operand, rfl, h, List.not_mem_nil⟩
  | binary op lhs rhs =>
    rcases List.mem_append.1 h with h | h
    · exact .inr ⟨.binaryLeft op rhs, lhs, rfl, h, List.not_mem_nil⟩
    · exact .inr ⟨.binaryRight op lhs, rhs, rfl, h, List.not_mem_nil⟩
  | compare first links =>
    rcases List.mem_append.1 h with h | h
    · exact .inr ⟨.compareFirst links, first, rfl, h, List.not_mem_nil⟩
    · obtain ⟨⟨op, operand⟩, hl, hfree⟩ := mem_linkFreeNames.1 h
      obtain ⟨before, after, rfl⟩ := List.append_of_mem hl
      exact .inr ⟨.compareLink first before op after, operand, rfl, hfree, List.not_mem_nil⟩
  | logic op lhs rhs =>
    rcases List.mem_append.1 h with h | h
    · exact .inr ⟨.logicLeft op rhs, lhs, rfl, h, List.not_mem_nil⟩
    · exact .inr ⟨.logicRight op lhs, rhs, rfl, h, List.not_mem_nil⟩
  | conditional value condition otherwise =>
    rcases List.mem_append.1 h with h | h
    · exact .inr ⟨.conditionalValue condition otherwise, value, rfl, h, List.not_mem_nil⟩
    rcases List.mem_append.1 h with h | h
    · exact .inr ⟨.conditionalCondition value otherwise, condition, rfl, h, List.not_mem_nil⟩
    · exact .inr ⟨.conditionalOtherwise value condition, otherwise, rfl, h, List.not_mem_nil⟩
  | tuple items =>
    obtain ⟨c, hc, hfree⟩ := mem_rowFreeNames.1 h
    obtain ⟨before, after, rfl⟩ := List.append_of_mem hc
    exact .inr ⟨.tuple before after, c, rfl, hfree, List.not_mem_nil⟩
  | list items =>
    obtain ⟨c, hc, hfree⟩ := mem_rowFreeNames.1 h
    obtain ⟨before, after, rfl⟩ := List.append_of_mem hc
    exact .inr ⟨.list before after, c, rfl, hfree, List.not_mem_nil⟩
  | comprehension element clauses =>
    rcases mem_clauseFreeNames.1 h with ⟨hfree, hbound⟩ |
      ⟨before, ⟨loopVar, items, filters⟩, after, rfl, hbefore, hfree | ⟨hvar, c, hc, hfree⟩⟩
    · exact .inr ⟨.comprehensionElement clauses, element, rfl, hfree, hbound⟩
    · exact .inr ⟨.clauseItems element before loopVar filters after, items, rfl, hfree, hbefore⟩
    · obtain ⟨earlier, later, hfilters⟩ := List.append_of_mem hc
      obtain rfl : filters = earlier ++ c :: later := hfilters
      refine .inr
        ⟨.clauseFilter element before loopVar items earlier later after, c, rfl, hfree, ?_⟩
      exact List.not_mem_cons_of_ne_of_not_mem hvar hbefore
  | range args =>
    obtain ⟨c, hc, hfree⟩ := mem_rowFreeNames.1 h
    obtain ⟨before, after, rfl⟩ := List.append_of_mem hc
    exact .inr ⟨.range before after, c, rfl, hfree, List.not_mem_nil⟩

/-- The free names of an expression are those that stand at a place of it where no clause around
the place binds them. -/
theorem mem_freeNames_iff {word : String} {e : Expr} :
    word ∈ e.freeNames ↔ ∃ holes, fillAll holes (name word) = e ∧ word ∉ scope holes := by
  constructor
  · intro h
    induction hsize : sizeOf e using Nat.strong_induction_on generalizing e with
    | _ n ih =>
      rcases exists_fill_of_mem_freeNames h with rfl | ⟨hole, c, rfl, hc, hbinds⟩
      · exact ⟨[], rfl, List.not_mem_nil⟩
      · have hlt : sizeOf c < n := hsize ▸ sizeOf_lt_of_mem_children (mem_children_fill hole c)
        obtain ⟨holes, rfl, hscope⟩ := ih _ hlt hc rfl
        exact ⟨hole :: holes, rfl, List.not_mem_append hscope hbinds⟩
  · rintro ⟨holes, rfl, hscope⟩
    induction holes with
    | nil => exact List.mem_singleton_self word
    | cons hole holes ih =>
      rw [scope, List.mem_append, not_or] at hscope
      exact mem_freeNames_fill hole (ih hscope.1) hscope.2

end Expr

/-- In `[i for i in i] + [j]` the variable `i` is not in the scope of its own clause where it is
run over. -/
example : Expr.freeNames (.binary .add (.comprehension (.name "i") [.mk "i" (.name "i") []])
    (.list [.name "j"])) = ["i", "j"] := by decide

/-! ### Unknown names -/

/-- A fault for which a formula gives no paths is one of its evaluation. -/
theorem Formula.evaluate_of_relativePaths (f : Formula) {b : Bindings} {source : String}
    {fault : EvalFault} (h : f.relativePaths b = .error ⟨source, .failed fault⟩) :
    f.expr.evaluate b = .error fault := by
  unfold relativePaths at h
  split at h
  · next fault' hfault =>
    injection h with h
    injection h with _ h
    injection h with h
    rw [hfault, h]
  · split at h
    · cases h
    · cases h

theorem Formula.evaluate_of_worldPaths (f : Formula) {frame : Frame} {position : Point}
    {board : Board} {anyOk : Bool} {source : String} {fault : EvalFault}
    (h : f.worldPaths frame position board anyOk = .error ⟨source, .failed fault⟩) :
    f.expr.evaluate (.ofPlace (frame.toPlayer position) board anyOk) = .error fault := by
  unfold worldPaths at h
  cases hpaths : f.relativePaths (.ofPlace (frame.toPlayer position) board anyOk) with
  | error e =>
    rw [hpaths] at h
    obtain rfl := Except.error.inj h
    exact f.evaluate_of_relativePaths hpaths
  | ok paths =>
    rw [hpaths] at h
    cases h

namespace Expr

theorem evaluate_eq_error_iff {e : Expr} {b : Bindings} {fault : EvalFault} :
    e.evaluate b = .error fault ↔ (Place.start e b).Fails fault := by
  change Except.map Prod.fst (e.eval (.ofBoard b) maxValues) = _ ↔
    e.eval (.ofBoard b) maxValues = _
  rcases e.eval (.ofBoard b) maxValues with fault' | ⟨v, left⟩
  · exact ⟨fun h ↦ congrArg _ (Except.error.inj h), fun h ↦ congrArg _ (Except.error.inj h)⟩
  · exact ⟨nofun, nofun⟩

theorem unknownName_iff_visits {e : Expr} {b : Bindings} {word : String} :
    e.evaluate b = .error (.unknownName word) ↔
      word ∉ boardNames ∧ ∃ holes locals left, fillAll holes (name word) = e ∧
        locals.map Prod.fst = scope holes ∧ word ∉ scope holes ∧
        Visits (.start e b) ⟨name word, ⟨b, locals⟩, left⟩ := by
  rw [evaluate_eq_error_iff, Place.fails_iff rfl]
  constructor
  · rintro ⟨⟨_, env, left⟩, word', hvisits, rfl, hfind⟩
    obtain ⟨rfl, hboard, hlocals⟩ := Env.find_eq_unknownName_iff.1 hfind
    obtain ⟨holes, locals, hfill, hnames, henv⟩ := hvisits.exists_holes
    rw [Place.start, Env.ofBoard, List.append_nil] at henv
    obtain rfl : env = ⟨b, locals⟩ := henv
    rw [hnames] at hlocals
    exact ⟨hboard, holes, locals, left, hfill, hnames, hlocals, hvisits⟩
  · rintro ⟨hboard, holes, locals, left, -, hnames, hscope, hvisits⟩
    refine ⟨_, word, hvisits, rfl, Env.find_eq_unknownName_iff.2 ⟨rfl, hboard, ?_⟩⟩
    rwa [hnames]

/-- An evaluation fails with an unknown name exactly if it comes to a place of the expression where
the name stands, the board does not bind it, and no clause around the place does. The variables in
force wherever it comes to are those of the clauses around that place. So a formula whose free names
are all the board's has no unknown name, for any bindings, any frame and any position on any
board. -/
theorem unknownName_iff_free :
    (∀ (e : Expr) (b : Bindings) (word : String), e.evaluate b = .error (.unknownName word) ↔
      word ∉ boardNames ∧ ∃ holes locals left, fillAll holes (name word) = e ∧
        locals.map Prod.fst = scope holes ∧ word ∉ scope holes ∧
        Visits (.start e b) ⟨name word, ⟨b, locals⟩, left⟩) ∧
    (∀ (e : Expr) (word : String), word ∈ e.freeNames ↔
      ∃ holes, fillAll holes (name word) = e ∧ word ∉ scope holes) ∧
    ∀ f : Formula, (∀ word ∈ f.expr.freeNames, word ∈ boardNames) → ∀ word,
      (∀ b, f.expr.evaluate b ≠ .error (.unknownName word)) ∧
      ∀ frame position board anyOk source, f.worldPaths frame position board anyOk ≠
        .error ⟨source, .failed (.unknownName word)⟩ := by
  refine ⟨fun e b word ↦ ?_, fun e word ↦ mem_freeNames_iff, fun f hfree word ↦ ?_⟩
  · exact unknownName_iff_visits
  · have hevaluate (b : Bindings) : f.expr.evaluate b ≠ .error (.unknownName word) := by
      intro h
      obtain ⟨hboard, holes, -, -, hfill, -, hscope, -⟩ := unknownName_iff_visits.1 h
      exact hboard (hfree word (mem_freeNames_iff.2 ⟨holes, hfill, hscope⟩))
    exact ⟨hevaluate, fun frame position board anyOk source h ↦
      hevaluate _ (f.evaluate_of_worldPaths h)⟩

/-- The tokens of `[(i, y) for i in [x] if i]`. -/
def boundTokens : List Token :=
  .mark .bracketOpen :: (pairTokens "i" "y" ++ ([.mark .kwFor, .name "i", .mark .kwIn,
    .mark .bracketOpen, .name "x", .mark .bracketClose, .mark .kwIf, .name "i"] ++
    [.mark .bracketClose]))

theorem phrase_bound : Phrase .expr boundTokens
    (.comprehension (pair "i" "y") [.mk "i" (.list [.name "x"]) [.name "i"]]) 3 := by
  have hi : Phrase .atom [.name "i"] (.name "i") 0 := .name (by decide)
  have hx : Phrase .atom [.name "x"] (.name "x") 0 := .name (by decide)
  have hclause := Phrase.clause (show "i" ∉ _ by decide)
    (Phrase.list (.last hx.expr_of_atom)).disjunction_of_atom
    (.filtersCons hi.disjunction_of_atom .filtersNil)
  have hpair := phrase_pair (show "i" ≠ "range" by decide) (show "y" ≠ "range" by decide)
  exact (Phrase.comprehension hpair (.clausesCons hclause .clausesNil)).expr_of_atom

/-- The formula `[(i, y) for i in [x] if i]`, whose free names are `x` and `y`. -/
def boundFormula : Formula :=
  ⟨_, _, parse_spell (show ∀ t ∈ boundTokens, t.IsWord by decide) phrase_bound (by decide)⟩

/-- A variable of a clause that is used in its scope is not unknown. -/
theorem unknownName_iff_free_bound : (∀ word ∈ boundFormula.expr.freeNames, word ∈ boardNames) ∧
    ∀ word, (∀ b, boundFormula.expr.evaluate b ≠ .error (.unknownName word)) ∧
      ∀ frame position board anyOk source, boundFormula.worldPaths frame position board anyOk ≠
        .error ⟨source, .failed (.unknownName word)⟩ := by
  have hfree : ∀ word ∈ boundFormula.expr.freeNames, word ∈ boardNames := by decide
  exact ⟨hfree, unknownName_iff_free.2.2 boundFormula hfree⟩

end Expr

end Waypoints
