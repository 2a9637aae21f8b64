import Mathlib.Logic.Function.Basic
import Waypoints.Proofs.Evaluation.Footprint
/-!
# The scope of the variables of clauses

A clause binds its variable for its own conditions, for the clauses after it and for the element, up
to a later clause that binds the same name. `Expr.rename` replaces the names of an expression as far
as its own clauses do not hide them, and an expression that avoids the new name has the same outcome
after the renaming in an environment that carries it (`Expr.eval_rename`). So the variable of a
clause may have any name that its scope avoids (`Expr.eval_renameClause`).

A `Hole` is a node with one of its children left out, and `Hole.binds` the variables that its
clauses bind around that place. What stands at a place is evaluated with exactly the variables of
the holes around it, whatever was evaluated before (`Expr.evaluate_fillAll`).
-/

set_option autoImplicit false
set_option relaxedAutoImplicit false

namespace Waypoints

/-! ### Names in force -/

namespace Env

theorem find_bind_self (env : Env) (loopVar : String) (v : Value) :
    (env.bind loopVar v).find loopVar = .ok v := by
  rw [find, bind, List.lookup_cons, beq_self_eq_true]

theorem find_bind_of_ne {word loopVar : String} (h : word ≠ loopVar) (env : Env) (v : Value) :
    (env.bind loopVar v).find word = env.find word := by
  rw [find, bind, List.lookup_cons, beq_eq_false_iff_ne.2 h]
  rfl

/-- A name that no variable has stands for what the board binds. -/
theorem find_of_notMem {word : String} {env : Env} (h : word ∉ env.locals.map Prod.fst) :
    env.find word = env.board.find word := by
  have hlookup : env.locals.lookup word = none := by
    rw [List.lookup_eq_none_iff]
    intro p hp
    rw [bne_iff_ne]
    rintro rfl
    exact h (List.mem_map_of_mem hp)
  rw [find, hlookup]

end Env

/-- Leaves the variable of a clause as it is. -/
def hide (ρ : String → String) (loopVar : String) : String → String :=
  Function.update ρ loopVar loopVar

theorem hide_self (ρ : String → String) (loopVar : String) : hide ρ loopVar loopVar = loopVar :=
  Function.update_self ..

theorem hide_of_ne {word loopVar : String} (h : word ≠ loopVar) (ρ : String → String) :
    hide ρ loopVar word = ρ word :=
  Function.update_of_ne h ..

/-- Renames the variable of a clause and nothing else. -/
def Clause.renaming (c : Clause) (fresh : String) : String → String :=
  Function.update id c.loopVar fresh

/-- In the second environment, what a renaming to `fresh` makes of a name stands for what the name
stands for in the first one, if the name is not `fresh` itself. -/
structure Env.Carries (ρ : String → String) (fresh : String) (env env' : Env) : Prop where
  keeps : ∀ word, ρ word = word ∨ ρ word = fresh
  find_eq : ∀ word, word ≠ fresh → env'.find (ρ word) = env.find word

namespace Env.Carries

variable {ρ : String → String} {fresh : String} {env env' : Env}

/-- A clause that does not bind the new name hides its own variable from the renaming. -/
theorem bind (h : Carries ρ fresh env env') {loopVar : String} (hvar : loopVar ≠ fresh)
    (v : Value) : Carries (hide ρ loopVar) fresh (env.bind loopVar v) (env'.bind loopVar v) where
  keeps word := by
    by_cases hword : word = loopVar
    · rw [hword, hide_self]
      exact .inl rfl
    · rw [hide_of_ne hword]
      exact h.keeps word
  find_eq word hfresh := by
    by_cases hword : word = loopVar
    · rw [hword, hide_self, find_bind_self, find_bind_self]
    · have hne : ρ word ≠ loopVar := by
        rcases h.keeps word with heq | heq
        · rwa [heq]
        · rw [heq]
          exact hvar.symm
      rw [hide_of_ne hword, find_bind_of_ne hne, find_bind_of_ne hword, h.find_eq word hfresh]

/-- The variable of a clause under its old and its new name. -/
theorem ofBind (env : Env) (loopVar fresh : String) (v : Value) :
    Carries (Function.update id loopVar fresh) fresh (env.bind loopVar v) (env.bind fresh v) where
  keeps word := by
    by_cases hword : word = loopVar
    · rw [hword, Function.update_self]
      exact .inr rfl
    · rw [Function.update_of_ne hword]
      exact .inl rfl
  find_eq word hfresh := by
    by_cases hword : word = loopVar
    · rw [hword, Function.update_self, find_bind_self, find_bind_self]
    · rw [Function.update_of_ne hword, id, find_bind_of_ne hfresh, find_bind_of_ne hword]

end Env.Carries

/-! ### Renaming -/

namespace Expr

mutual

/-- The names that an expression uses or binds. -/
def words : Expr → List String
  | number _ => []
  | name word => [word]
  | unary _ operand => words operand
  | binary _ lhs rhs => words lhs ++ words rhs
  | compare first links => words first ++ linkWords links
  | logic _ lhs rhs => words lhs ++ words rhs
  | conditional value condition otherwise => words value ++ (words condition ++ words otherwise)
  | tuple items => rowWords items
  | list items => rowWords items
  | comprehension element clauses => clauseWords clauses ++ words element
  | range args => rowWords args

/-- The names of a row of expressions. -/
def rowWords : List Expr → List String
  | [] => []
  | e :: es => words e ++ rowWords es

/-- The names of a chain of comparisons. -/
def linkWords : List Link → List String
  | [] => []
  | .mk _ operand :: links => words operand ++ linkWords links

/-- The names that clauses use or bind. -/
def clauseWords : List Clause → List String
  | [] => []
  | .mk loopVar items filters :: clauses =>
    loopVar :: (words items ++ (rowWords filters ++ clauseWords clauses))

end

/-- What is left of a renaming after clauses, each of which hides its variable. -/
def hideAll (ρ : String → String) (clauses : List Clause) : String → String :=
  clauses.foldl (fun ρ c ↦ hide ρ c.loopVar) ρ

mutual

/-- Renames the names of an expression, those apart that its own clauses bind. -/
def rename : Expr → (String → String) → Expr
  | number value, _ => number value
  | name word, ρ => name (ρ word)
  | unary op operand, ρ => unary op (rename operand ρ)
  | binary op lhs rhs, ρ => binary op (rename lhs ρ) (rename rhs ρ)
  | compare first links, ρ => compare (rename first ρ) (renameLinks links ρ)
  | logic op lhs rhs, ρ => logic op (rename lhs ρ) (rename rhs ρ)
  | conditional value condition otherwise, ρ =>
    conditional (rename value ρ) (rename condition ρ) (rename otherwise ρ)
  | tuple items, ρ => tuple (renameRow items ρ)
  | list items, ρ => list (renameRow items ρ)
  | comprehension element clauses, ρ =>
    comprehension (rename element (hideAll ρ clauses)) (renameClauses clauses ρ)
  | range args, ρ => range (renameRow args ρ)

/-- Renames the names of a row of expressions. -/
def renameRow : List Expr → (String → String) → List Expr
  | [], _ => []
  | e :: es, ρ => rename e ρ :: renameRow es ρ

/-- Renames the names of a chain of comparisons. -/
def renameLinks : List Link → (String → String) → List Link
  | [], _ => []
  | .mk op operand :: links, ρ => .mk op (rename operand ρ) :: renameLinks links ρ

/-- Renames the names of clauses. What a clause runs over is not in the scope of its variable, but
its conditions and the later clauses are. -/
def renameClauses : List Clause → (String → String) → List Clause
  | [], _ => []
  | .mk loopVar items filters :: clauses, ρ =>
    .mk loopVar (rename items ρ) (renameRow filters (hide ρ loopVar)) ::
      renameClauses clauses (hide ρ loopVar)

end

section Rows

variable {ρ : String → String} {fresh : String} {env env' : Env}

/-- The outcome of an expression that avoids a name does not change by a renaming to that name which
the environments carry. -/
def Renames (e : Expr) : Prop :=
  ∀ ⦃ρ fresh env env'⦄, fresh ∉ e.words → Env.Carries ρ fresh env env' →
    (e.rename ρ).eval env' = e.eval env

theorem evalAll_renameRow {es : List Expr} (h : ∀ e ∈ es, e.Renames) (hfresh : fresh ∉ rowWords es)
    (henv : Env.Carries ρ fresh env env') : evalAll (renameRow es ρ) env' = evalAll es env := by
  induction es with
  | nil => rfl
  | cons e es ih =>
    obtain ⟨he, hes⟩ := List.forall_mem_cons.1 h
    rw [rowWords, List.mem_append, not_or] at hfresh
    rw [renameRow, evalAll, evalAll, he hfresh.1 henv, ih hes hfresh.2]

theorem evalLinks_renameLinks {links : List Link} (h : ∀ l ∈ links, l.operand.Renames)
    (hfresh : fresh ∉ linkWords links) (henv : Env.Carries ρ fresh env env') (lhs : Value) :
    evalLinks (renameLinks links ρ) env' lhs = evalLinks links env lhs := by
  induction links generalizing lhs with
  | nil => rfl
  | cons l links ih =>
    obtain ⟨op, operand⟩ := l
    obtain ⟨hl, hlinks⟩ := List.forall_mem_cons.1 h
    change operand.Renames at hl
    rw [linkWords, List.mem_append, not_or] at hfresh
    rw [renameLinks, evalLinks, evalLinks, hl hfresh.1 henv]
    simp only [ih hlinks hfresh.2]

theorem evalFilters_renameRow {es : List Expr} (h : ∀ e ∈ es, e.Renames)
    (hfresh : fresh ∉ rowWords es) (henv : Env.Carries ρ fresh env env') :
    evalFilters (renameRow es ρ) env' = evalFilters es env := by
  induction es with
  | nil => rfl
  | cons e es ih =>
    obtain ⟨he, hes⟩ := List.forall_mem_cons.1 h
    rw [rowWords, List.mem_append, not_or] at hfresh
    rw [renameRow, evalFilters, evalFilters, he hfresh.1 henv, ih hes hfresh.2]

/-- A clause gives the same for an item under a new name for its variable, if that name carries the
item and the clauses after it give the same. -/
theorem evalItem_rename {build build' : Env → EvalM (List Value)} {loopVar loopVar' : String}
    (items items' : Expr) {filters : List Expr} {clauses clauses' : List Clause} {item : Value}
    (h : ∀ e ∈ filters, e.Renames) (hfresh : fresh ∉ rowWords filters)
    (henv : Env.Carries ρ fresh (env.bind loopVar item) (env'.bind loopVar' item))
    (hclauses : evalClauses build' clauses' (env'.bind loopVar' item) =
      evalClauses build clauses (env.bind loopVar item)) :
    evalItem build' (.mk loopVar' items' (renameRow filters ρ)) clauses' env' item =
      evalItem build (.mk loopVar items filters) clauses env item := by
  simp only [evalItem, Clause.filters, Clause.loopVar]
  rw [evalFilters_renameRow h hfresh henv, hclauses]

/-- Clauses give the same if what they collect is the same in environments that carry what they
leave of the renaming. -/
theorem evalClauses_renameClauses {build build' : Env → EvalM (List Value)} {clauses : List Clause}
    (h : ∀ c ∈ clauses, c.items.Renames ∧ ∀ e ∈ c.filters, e.Renames)
    (hfresh : fresh ∉ clauseWords clauses) (henv : Env.Carries ρ fresh env env')
    (hbuild : ∀ env env', Env.Carries (hideAll ρ clauses) fresh env env' →
      build' env' = build env) :
    evalClauses build' (renameClauses clauses ρ) env' = evalClauses build clauses env := by
  induction clauses generalizing ρ env env' with
  | nil => exact hbuild env env' henv
  | cons c clauses ih =>
    obtain ⟨loopVar, items, filters⟩ := c
    obtain ⟨⟨hitems, hfilters⟩, hclauses⟩ := List.forall_mem_cons.1 h
    simp only [Clause.items, Clause.filters] at hitems hfilters
    simp only [clauseWords, List.mem_cons, List.mem_append, not_or] at hfresh
    obtain ⟨hvar, hfreshItems, hfreshFilters, hfreshClauses⟩ := hfresh
    have hitem (item : Value) :
        evalItem build' (.mk loopVar (rename items ρ) (renameRow filters (hide ρ loopVar)))
          (renameClauses clauses (hide ρ loopVar)) env' item =
        evalItem build (.mk loopVar items filters) clauses env item := by
      have hbind := henv.bind (Ne.symm hvar) item
      exact evalItem_rename _ _ hfilters hfreshFilters hbind
        (ih hclauses hfreshClauses hbind hbuild)
    rw [renameClauses, evalClauses_cons, evalClauses_cons, funext hitem]
    exact congrArg (· >>= _) (hitems hfreshItems henv)

end Rows

theorem renames (e : Expr) : e.Renames := by
  induction e with
  | number value => exact fun _ _ _ _ _ _ ↦ rfl
  | name word =>
    intro ρ fresh env env' hfresh henv
    rw [words, List.mem_singleton] at hfresh
    exact congrArg liftM (henv.find_eq word (Ne.symm hfresh))
  | unary op operand ih =>
    intro ρ fresh env env' hfresh henv
    rw [rename, eval, eval, ih hfresh henv]
  | binary op lhs rhs ihl ihr =>
    intro ρ fresh env env' hfresh henv
    rw [words, List.mem_append, not_or] at hfresh
    rw [rename, eval, eval, ihl hfresh.1 henv, ihr hfresh.2 henv]
  | compare first links ihf ihl =>
    intro ρ fresh env env' hfresh henv
    rw [words, List.mem_append, not_or] at hfresh
    rw [rename, eval, eval, ihf hfresh.1 henv]
    simp only [evalLinks_renameLinks ihl hfresh.2 henv]
  | logic op lhs rhs ihl ihr =>
    intro ρ fresh env env' hfresh henv
    rw [words, List.mem_append, not_or] at hfresh
    rw [rename, eval, eval, ihl hfresh.1 henv, ihr hfresh.2 henv]
  | conditional value condition otherwise ihv ihc iho =>
    intro ρ fresh env env' hfresh henv
    simp only [words, List.mem_append, not_or] at hfresh
    rw [rename, eval, eval, ihv hfresh.1 henv, ihc hfresh.2.1 henv, iho hfresh.2.2 henv]
  | tuple items ih =>
    intro ρ fresh env env' hfresh henv
    rw [rename, eval, eval, evalAll_renameRow ih hfresh henv]
  | list items ih =>
    intro ρ fresh env env' hfresh henv
    rw [rename, eval, eval, evalAll_renameRow ih hfresh henv]
  | comprehension element clauses ihe ihc =>
    intro ρ fresh env env' hfresh henv
    rw [words, List.mem_append, not_or] at hfresh
    rw [rename, eval_comprehension, eval_comprehension,
      evalClauses_renameClauses ihc hfresh.1 henv fun env env' henv ↦ ?_]
    rw [buildElement, buildElement, ihe hfresh.2 henv]
  | range args ih =>
    intro ρ fresh env env' hfresh henv
    rw [rename, eval, eval, evalAll_renameRow ih hfresh henv]

/-- An expression that avoids a name has the same outcome after a renaming to that name, where that
name stands for what the old one stood for. -/
theorem eval_rename {e : Expr} {ρ : String → String} {fresh : String} {env env' : Env}
    (hfresh : fresh ∉ e.words) (henv : Env.Carries ρ fresh env env') :
    (e.rename ρ).eval env' = e.eval env :=
  e.renames hfresh henv

/-! ### The variable of a clause -/

/-- The names in the scope of a clause: in its conditions, in the clauses after it and in the
element. -/
def scopeWords (element : Expr) (c : Clause) (later : List Clause) : List String :=
  rowWords c.filters ++ (clauseWords later ++ words element)

/-- A comprehension with another name for the variable of one of its clauses. What the clause runs
over stays as it is. -/
def renameClause (fresh : String) (element : Expr) (before : List Clause) (c : Clause)
    (later : List Clause) : Expr :=
  comprehension (rename element (hideAll (c.renaming fresh) later))
    (before ++ .mk fresh c.items (renameRow c.filters (c.renaming fresh)) ::
      renameClauses later (c.renaming fresh))

/-- The clauses after some are run through for each binding of these. -/
theorem evalClauses_append (build : Env → EvalM (List Value)) (before after : List Clause)
    (env : Env) : evalClauses build (before ++ after) env =
      evalClauses (evalClauses build after) before env := by
  induction before generalizing env with
  | nil => rfl
  | cons c before ih =>
    have hitem : evalItem build c (before ++ after) env =
        evalItem (evalClauses build after) c before env := by
      funext item
      rw [evalItem, evalItem, ih]
    rw [List.cons_append, evalClauses_cons, evalClauses_cons, hitem]

/-- A clause and those after it give the same under another name for its variable, if its scope
avoids that name. -/
theorem evalClauses_renaming {fresh : String} {element : Expr} {c : Clause} {later : List Clause}
    (hfresh : fresh ∉ scopeWords element c later) (env : Env) :
    evalClauses (buildElement (rename element (hideAll (c.renaming fresh) later)))
      (.mk fresh c.items (renameRow c.filters (c.renaming fresh)) ::
        renameClauses later (c.renaming fresh)) env =
      evalClauses (buildElement element) (c :: later) env := by
  obtain ⟨loopVar, items, filters⟩ := c
  simp only [scopeWords, Clause.filters, List.mem_append, not_or] at hfresh
  obtain ⟨hfilters, hlater, helement⟩ := hfresh
  have hbuild (env env' : Env)
      (henv : Env.Carries (hideAll (Function.update id loopVar fresh) later) fresh env env') :
      buildElement (rename element (hideAll (Function.update id loopVar fresh) later)) env' =
        buildElement element env := by
    rw [buildElement, buildElement, eval_rename helement henv]
  have hitem (item : Value) := evalItem_rename items items
    (fun e _ ↦ e.renames) hfilters (Env.Carries.ofBind env loopVar fresh item)
    (evalClauses_renameClauses (fun c _ ↦ ⟨c.items.renames, fun e _ ↦ e.renames⟩) hlater
      (Env.Carries.ofBind env loopVar fresh item) hbuild)
  rw [evalClauses_cons, evalClauses_cons, ← funext hitem]
  rfl

/-- The variable of a clause may have any name that its scope avoids. -/
theorem eval_renameClause {fresh : String} {element : Expr} {c : Clause} {later : List Clause}
    (hfresh : fresh ∉ scopeWords element c later) (before : List Clause) (env : Env) :
    (renameClause fresh element before c later).eval env =
      (comprehension element (before ++ c :: later)).eval env := by
  rw [renameClause, eval_comprehension, eval_comprehension, evalClauses_append, evalClauses_append,
    funext (evalClauses_renaming hfresh)]

end Expr

/-! ### Places -/

/-- A node with one of its children left out. -/
inductive Hole
  | unary (op : UnaryOp)
  | binaryLeft (op : BinaryOp) (rhs : Expr)
  | binaryRight (op : BinaryOp) (lhs : Expr)
  | compareFirst (links : List Link)
  | compareLink (first : Expr) (before : List Link) (op : CompareOp) (after : List Link)
  | logicLeft (op : LogicOp) (rhs : Expr)
  | logicRight (op : LogicOp) (lhs : Expr)
  | conditionalValue (condition otherwise : Expr)
  | conditionalCondition (value otherwise : Expr)
  | conditionalOtherwise (value condition : Expr)
  | tuple (before after : List Expr)
  | list (before after : List Expr)
  | range (before after : List Expr)
  | comprehensionElement (clauses : List Clause)
  | clauseItems (element : Expr) (before : List Clause) (loopVar : String) (filters : List Expr)
    (after : List Clause)
  | clauseFilter (element : Expr) (before : List Clause) (loopVar : String) (items : Expr)
    (earlier later : List Expr) (after : List Clause)

/-- The variables of clauses, the innermost first. -/
def boundBy (clauses : List Clause) : List String :=
  (clauses.map Clause.loopVar).reverse

namespace Hole

/-- Puts a child into its place. -/
def fill : Hole → Expr → Expr
  | unary op, e => .unary op e
  | binaryLeft op rhs, e => .binary op e rhs
  | binaryRight op lhs, e => .binary op lhs e
  | compareFirst links, e => .compare e links
  | compareLink first before op after, e => .compare first (before ++ .mk op e :: after)
  | logicLeft op rhs, e => .logic op e rhs
  | logicRight op lhs, e => .logic op lhs e
  | conditionalValue condition otherwise, e => .conditional e condition otherwise
  | conditionalCondition value otherwise, e => .conditional value e otherwise
  | conditionalOtherwise value condition, e => .conditional value condition e
  | tuple before after, e => .tuple (before ++ e :: after)
  | list before after, e => .list (before ++ e :: after)
  | range before after, e => .range (before ++ e :: after)
  | comprehensionElement clauses, e => .comprehension e clauses
  | clauseItems element before loopVar filters after, e =>
    .comprehension element (before ++ .mk loopVar e filters :: after)
  | clauseFilter element before loopVar items earlier later after, e =>
    .comprehension element (before ++ .mk loopVar items (earlier ++ e :: later) :: after)

/-- The variables that a node binds for a child, the innermost first: the variables of the clauses
before it, and for a condition also the one of its own clause. -/
def binds : Hole → List String
  | comprehensionElement clauses => boundBy clauses
  | clauseItems _ before _ _ _ => boundBy before
  | clauseFilter _ before loopVar _ _ _ _ => loopVar :: boundBy before
  | _ => []

end Hole

namespace Expr

/-- Puts an expression into holes inside one another, the outermost first. -/
def fillAll : List Hole → Expr → Expr
  | [], e => e
  | h :: hs, e => h.fill (fillAll hs e)

/-- The variables in force in holes inside one another, the innermost first. -/
def scope : List Hole → List String
  | [] => []
  | h :: hs => scope hs ++ h.binds

/-- Every child of a node has a place in it. -/
theorem exists_fill {e c : Expr} (h : c ∈ e.children) : ∃ hole : Hole, hole.fill c = e := by
  cases e with
  | number value => cases h
  | name word => cases h
  | unary op operand =>
    obtain rfl := List.mem_singleton.1 h
    exact ⟨.unary op, rfl⟩
  | binary op lhs rhs =>
    rcases List.mem_pair.1 h with rfl | rfl
    · exact ⟨.binaryLeft op rhs, rfl⟩
    · exact ⟨.binaryRight op lhs, rfl⟩
  | compare first links =>
    simp only [children, parts, clauseParts, List.append_nil, List.mem_cons, List.mem_map] at h
    rcases h with rfl | ⟨⟨op, operand⟩, hl, rfl⟩
    · exact ⟨.compareFirst links, rfl⟩
    · obtain ⟨before, after, rfl⟩ := List.append_of_mem hl
      exact ⟨.compareLink first before op after, rfl⟩
  | logic op lhs rhs =>
    rcases List.mem_pair.1 h with rfl | rfl
    · exact ⟨.logicLeft op rhs, rfl⟩
    · exact ⟨.logicRight op lhs, rfl⟩
  | conditional value condition otherwise =>
    simp only [children, parts, clauseParts, List.append_nil, List.mem_cons, List.not_mem_nil,
      or_false] at h
    rcases h with rfl | rfl | rfl
    · exact ⟨.conditionalValue condition otherwise, rfl⟩
    · exact ⟨.conditionalCondition value otherwise, rfl⟩
    · exact ⟨.conditionalOtherwise value condition, rfl⟩
  | tuple items =>
    have hmem : c ∈ items := by simpa only [children, parts, clauseParts, List.append_nil] using h
    obtain ⟨before, after, rfl⟩ := List.append_of_mem hmem
    exact ⟨.tuple before after, rfl⟩
  | list items =>
    have hmem : c ∈ items := by simpa only [children, parts, clauseParts, List.append_nil] using h
    obtain ⟨before, after, rfl⟩ := List.append_of_mem hmem
    exact ⟨.list before after, rfl⟩
  | comprehension element clauses =>
    simp only [children, parts, clauseParts, List.mem_append, List.mem_singleton,
      List.mem_flatMap] at h
    rcases h with rfl | ⟨⟨loopVar, items, filters⟩, hc, h⟩
    · exact ⟨.comprehensionElement clauses, rfl⟩
    · obtain ⟨before, after, rfl⟩ := List.append_of_mem hc
      rcases List.mem_cons.1 h with rfl | h
      · exact ⟨.clauseItems element before loopVar filters after, rfl⟩
      · obtain ⟨earlier, later, heq⟩ := List.append_of_mem h
        obtain rfl : filters = earlier ++ c :: later := heq
        exact ⟨.clauseFilter element before loopVar items earlier later after, rfl⟩
  | range args =>
    have hmem : c ∈ args := by simpa only [children, parts, clauseParts, List.append_nil] using h
    obtain ⟨before, after, rfl⟩ := List.append_of_mem hmem
    exact ⟨.range before after, rfl⟩

/-- Every node of a tree has a place in it. -/
theorem exists_fillAll {e node : Expr} (h : e.Contains node) :
    ∃ holes, fillAll holes node = e := by
  induction h using Relation.ReflTransGen.head_induction_on with
  | refl => exact ⟨[], rfl⟩
  | head hchild _ ih =>
    obtain ⟨hole, rfl⟩ := exists_fill hchild
    obtain ⟨holes, rfl⟩ := ih
    exact ⟨hole :: holes, rfl⟩

section Replacement

variable {e e' : Expr} {env : Env}

theorem evalAll_replace (h : e'.eval env = e.eval env) (before after : List Expr) :
    evalAll (before ++ e' :: after) env = evalAll (before ++ e :: after) env := by
  induction before with
  | nil => rw [List.nil_append, List.nil_append, evalAll, evalAll, h]
  | cons a before ih => rw [List.cons_append, List.cons_append, evalAll, evalAll, ih]

theorem evalFilters_replace (h : e'.eval env = e.eval env) (before after : List Expr) :
    evalFilters (before ++ e' :: after) env = evalFilters (before ++ e :: after) env := by
  induction before with
  | nil => rw [List.nil_append, List.nil_append, evalFilters, evalFilters, h]
  | cons a before ih => rw [List.cons_append, List.cons_append, evalFilters, evalFilters, ih]

theorem evalLinks_replace (h : e'.eval env = e.eval env) (before after : List Link)
    (op : CompareOp) (lhs : Value) : evalLinks (before ++ .mk op e' :: after) env lhs =
      evalLinks (before ++ .mk op e :: after) env lhs := by
  induction before generalizing lhs with
  | nil => rw [List.nil_append, List.nil_append, evalLinks, evalLinks, h]
  | cons l before ih =>
    obtain ⟨op', operand⟩ := l
    rw [List.cons_append, List.cons_append, evalLinks, evalLinks]
    simp only [ih]

/-- What clauses collect matters only where exactly their variables have been added. -/
theorem evalClauses_congr {build build' : Env → EvalM (List Value)} (clauses : List Clause)
    (h : ∀ added : List (String × Value), added.map Prod.fst = boundBy clauses →
      build' ⟨env.board, added ++ env.locals⟩ = build ⟨env.board, added ++ env.locals⟩) :
    evalClauses build' clauses env = evalClauses build clauses env := by
  induction clauses generalizing env with
  | nil => exact h [] rfl
  | cons c clauses ih =>
    have hitem (item : Value) : evalItem build' c clauses env item =
        evalItem build c clauses env item := by
      rw [evalItem, evalItem, ih]
      intro added hadded
      have hvars : (added ++ [(c.loopVar, item)]).map Prod.fst = boundBy (c :: clauses) := by
        simp only [List.map_append, hadded, boundBy, List.map_cons, List.map_nil,
          List.reverse_cons]
      have hbuild := h _ hvars
      rwa [List.append_assoc] at hbuild
    rw [evalClauses_cons, evalClauses_cons, funext hitem]

/-- What stands in a hole matters only where exactly the variables that the hole binds have been
added. -/
theorem eval_fill (hole : Hole)
    (h : ∀ added : List (String × Value), added.map Prod.fst = hole.binds →
      e'.eval ⟨env.board, added ++ env.locals⟩ = e.eval ⟨env.board, added ++ env.locals⟩) :
    (hole.fill e').eval env = (hole.fill e).eval env := by
  have hsame (hbinds : hole.binds = []) : e'.eval env = e.eval env := h [] hbinds.symm
  cases hole with
  | unary op => rw [Hole.fill, Hole.fill, eval, eval, hsame rfl]
  | binaryLeft op rhs => rw [Hole.fill, Hole.fill, eval, eval, hsame rfl]
  | binaryRight op lhs => rw [Hole.fill, Hole.fill, eval, eval, hsame rfl]
  | compareFirst links => rw [Hole.fill, Hole.fill, eval, eval, hsame rfl]
  | compareLink first before op after =>
    rw [Hole.fill, Hole.fill, eval, eval]
    simp only [evalLinks_replace (hsame rfl)]
  | logicLeft op rhs => rw [Hole.fill, Hole.fill, eval, eval, hsame rfl]
  | logicRight op lhs => rw [Hole.fill, Hole.fill, eval, eval, hsame rfl]
  | conditionalValue condition otherwise => rw [Hole.fill, Hole.fill, eval, eval, hsame rfl]
  | conditionalCondition value otherwise => rw [Hole.fill, Hole.fill, eval, eval, hsame rfl]
  | conditionalOtherwise value condition => rw [Hole.fill, Hole.fill, eval, eval, hsame rfl]
  | tuple before after =>
    rw [Hole.fill, Hole.fill, eval, eval, evalAll_replace (hsame rfl)]
  | list before after =>
    rw [Hole.fill, Hole.fill, eval, eval, evalAll_replace (hsame rfl)]
  | range before after =>
    rw [Hole.fill, Hole.fill, eval, eval, evalAll_replace (hsame rfl)]
  | comprehensionElement clauses =>
    rw [Hole.fill, Hole.fill, eval_comprehension, eval_comprehension, evalClauses_congr clauses]
    intro added hadded
    rw [buildElement, buildElement, h added hadded]
  | clauseItems element before loopVar filters after =>
    rw [Hole.fill, Hole.fill, eval_comprehension, eval_comprehension, evalClauses_append,
      evalClauses_append, evalClauses_congr before]
    intro added hadded
    rw [evalClauses_cons, evalClauses_cons]
    exact congrArg (· >>= _) (h added hadded)
  | clauseFilter element before loopVar items earlier later after =>
    rw [Hole.fill, Hole.fill, eval_comprehension, eval_comprehension, evalClauses_append,
      evalClauses_append, evalClauses_congr before]
    intro added hadded
    have hitem (item : Value) :
        evalItem (buildElement element) (.mk loopVar items (earlier ++ e' :: later)) after
          ⟨env.board, added ++ env.locals⟩ item =
        evalItem (buildElement element) (.mk loopVar items (earlier ++ e :: later)) after
          ⟨env.board, added ++ env.locals⟩ item := by
      have hvars : ((loopVar, item) :: added).map Prod.fst = loopVar :: boundBy before :=
        congrArg (loopVar :: ·) hadded
      have hfilters := evalFilters_replace (h _ hvars) earlier later
      exact congrArg (· >>= _) hfilters
    rw [evalClauses_cons, evalClauses_cons, funext hitem]
    rfl

/-- What stands at a place matters only where exactly the variables in force there have been
added. -/
theorem eval_fillAll (holes : List Hole)
    (h : ∀ added : List (String × Value), added.map Prod.fst = scope holes →
      e'.eval ⟨env.board, added ++ env.locals⟩ = e.eval ⟨env.board, added ++ env.locals⟩) :
    (fillAll holes e').eval env = (fillAll holes e).eval env := by
  -- By induction from the outermost hole, for any environment around it.
  induction holes generalizing env with
  | nil => exact h [] rfl
  | cons hole holes ih =>
    refine eval_fill hole fun outer houter ↦ ih fun inner hinner ↦ ?_
    have hvars : (inner ++ outer).map Prod.fst = scope (hole :: holes) := by
      rw [List.map_append, hinner, houter, scope]
    have hsame := h _ hvars
    rwa [List.append_assoc] at hsame

end Replacement

/-- What stands at a place of an expression is evaluated with the variables of the clauses around
that place and no others, whatever values they have: if another expression has the same outcomes
there, then it may stand in its place. -/
theorem evaluate_fillAll {holes : List Hole} {e e' : Expr} {b : Bindings}
    (h : ∀ locals : List (String × Value), locals.map Prod.fst = scope holes →
      e'.eval ⟨b, locals⟩ = e.eval ⟨b, locals⟩) :
    (fillAll holes e').evaluate b = (fillAll holes e).evaluate b := by
  rw [evaluate, evaluate, eval_fillAll holes]
  intro added hadded
  have hsame := h added hadded
  rwa [← List.append_nil added] at hsame

end Expr

end Waypoints
