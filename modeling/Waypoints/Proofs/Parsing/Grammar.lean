import Mathlib.Order.Nat
import Waypoints.Expr.Parser
/-!
# The grammar of expressions

`Phrase s ts t n` says that the tokens `ts` are a phrase of the symbol `s` with the tree `t`, and
that `n` levels of it are open at once. The rules are those of the grammar; `Symbol.rest` and
`Symbol.links` are the repetitions in braces, and `Symbol.operand` names what a row is made of. The
number of levels restricts nothing: every rule applies whatever the levels of its parts are.

The operators are listed with the trees that they make (`Row.Joins`, `Mark.Compares`, `Mark.Signs`),
and `joins_iff_join?` and its like find the parser's tables to be the same.

What a token may follow is a matter of ranks. `joinRank` says how tightly a token takes hold of the
phrase before it, and `startRank` which symbols may start with it; `Phrase.startRank_le` gives the
first token of a phrase.
-/

set_option autoImplicit false
set_option relaxedAutoImplicit false

namespace Waypoints

/-! ### Operators -/

/-- The operators of a row, with the tree that each makes of its operands. -/
inductive Row.Joins : Row → Mark → (Expr → Expr → Expr) → Prop
  | or : Joins .disjunction .kwOr (.logic .or)
  | and : Joins .conjunction .kwAnd (.logic .and)
  | add : Joins .sum .plus (.binary .add)
  | sub : Joins .sum .minus (.binary .sub)
  | mul : Joins .term .star (.binary .mul)
  | div : Joins .term .slash (.binary .div)
  | floorDiv : Joins .term .slashSlash (.binary .floorDiv)
  | mod : Joins .term .percent (.binary .mod)

/-- The comparators. -/
inductive Mark.Compares : Mark → CompareOp → Prop
  | lt : Compares .less .lt
  | le : Compares .lessEq .le
  | gt : Compares .greater .gt
  | ge : Compares .greaterEq .ge
  | eq : Compares .eqEq .eq
  | ne : Compares .notEq .ne

/-- The signs. -/
inductive Mark.Signs : Mark → UnaryOp → Prop
  | plus : Signs .plus .plus
  | minus : Signs .minus .minus

theorem Row.joins_iff_join? {r : Row} {m : Mark} {join : Expr → Expr → Expr} :
    r.Joins m join ↔ r.join? m = some join := by
  constructor
  · rintro (_ | _) <;> rfl
  · intro h
    cases r <;> cases m <;> cases h <;> constructor

theorem Mark.compares_iff_ofMark? {m : Mark} {op : CompareOp} :
    m.Compares op ↔ CompareOp.ofMark? m = some op := by
  constructor
  · rintro (_ | _) <;> rfl
  · intro h
    cases m <;> cases h <;> constructor

theorem Mark.signs_iff_signAt? {m : Mark} {op : UnaryOp} :
    m.Signs op ↔ UnaryOp.signAt? (some (.mark m)) = some op := by
  constructor
  · rintro (_ | _) <;> rfl
  · intro h
    cases m <;> cases h <;> constructor

/-! ### Symbols and phrases -/

/-- The symbols of the grammar. -/
inductive Symbol
  | expr
  | row (r : Row)
  /-- The operators and operands that follow what a row has joined so far. -/
  | rest (r : Row) (lhs : Expr)
  | operand (r : Row)
  | inversion
  | comparison
  /-- The comparisons that follow the first operand of a chain. -/
  | links
  | factor
  | atom
  /-- One or more expressions between commas, with or without a comma at the end. -/
  | exprs
  | clauses
  | clause
  /-- The conditions of a clause. -/
  | filters

/-- The trees of the phrases of a symbol. -/
abbrev Symbol.Tree : Symbol → Type
  | links => List Link
  | exprs => List Expr
  | clauses => List Clause
  | clause => Clause
  | filters => List Expr
  | _ => Expr

/-- The phrases of the symbols, with their trees and the levels they open at once. -/
inductive Phrase : (s : Symbol) → List Token → s.Tree → Nat → Prop
  /-- `expr := disjunction` -/
  | plain {ts : List Token} {e : Expr} {n : Nat} :
      Phrase (.row .disjunction) ts e n → Phrase .expr ts e (n + 1)
  /-- `expr := disjunction if disjunction else expr` -/
  | conditional {ts us ws : List Token} {value condition otherwise : Expr} {k m n : Nat} :
      Phrase (.row .disjunction) ts value k → Phrase (.row .disjunction) us condition m →
      Phrase .expr ws otherwise n →
      Phrase .expr (ts ++ .mark .kwIf :: (us ++ .mark .kwElse :: ws))
        (.conditional value condition otherwise) (max k (max m n) + 1)
  /-- `row := operand { operator operand }` -/
  | row {r : Row} {ts us : List Token} {first joined : Expr} {m n : Nat} :
      Phrase (.operand r) ts first m → Phrase (.rest r first) us joined n →
      Phrase (.row r) (ts ++ us) joined (max m n)
  | restNil {r : Row} {lhs : Expr} : Phrase (.rest r lhs) [] lhs 0
  | restCons {r : Row} {mark : Mark} {join : Expr → Expr → Expr} {ts us : List Token}
      {lhs rhs joined : Expr} {m n : Nat} :
      r.Joins mark join → Phrase (.operand r) ts rhs m →
      Phrase (.rest r (join lhs rhs)) us joined n →
      Phrase (.rest r lhs) (.mark mark :: (ts ++ us)) joined (max m n + 1)
  /-- `disjunction` is made of `conjunction`. -/
  | conjunction {ts : List Token} {e : Expr} {n : Nat} :
      Phrase (.row .conjunction) ts e n → Phrase (.operand .disjunction) ts e n
  /-- `conjunction` is made of `inversion`. -/
  | inversion {ts : List Token} {e : Expr} {n : Nat} :
      Phrase .inversion ts e n → Phrase (.operand .conjunction) ts e n
  /-- `sum` is made of `term`. -/
  | term {ts : List Token} {e : Expr} {n : Nat} :
      Phrase (.row .term) ts e n → Phrase (.operand .sum) ts e n
  /-- `term` is made of `factor`. -/
  | factor {ts : List Token} {e : Expr} {n : Nat} :
      Phrase .factor ts e n → Phrase (.operand .term) ts e n
  /-- `inversion := not inversion` -/
  | not {ts : List Token} {e : Expr} {n : Nat} :
      Phrase .inversion ts e n → Phrase .inversion (.mark .kwNot :: ts) (.unary .not e) (n + 1)
  /-- `inversion := comparison` -/
  | comparison {ts : List Token} {e : Expr} {n : Nat} :
      Phrase .comparison ts e n → Phrase .inversion ts e n
  /-- `comparison := sum` -/
  | sum {ts : List Token} {e : Expr} {n : Nat} :
      Phrase (.row .sum) ts e n → Phrase .comparison ts e n
  /-- `comparison := sum comparator sum { comparator sum }` -/
  | compare {ts us : List Token} {first : Expr} {link : Link} {more : List Link} {m n : Nat} :
      Phrase (.row .sum) ts first m → Phrase .links us (link :: more) n →
      Phrase .comparison (ts ++ us) (.compare first (link :: more)) (max m n)
  | linksNil : Phrase .links [] [] 0
  | linksCons {mark : Mark} {op : CompareOp} {ts us : List Token} {operand : Expr}
      {more : List Link} {m n : Nat} :
      mark.Compares op → Phrase (.row .sum) ts operand m →
      Phrase .links us more n →
      Phrase .links (.mark mark :: (ts ++ us)) (.mk op operand :: more) (max m n)
  /-- `factor := (+ | -) factor` -/
  | sign {mark : Mark} {op : UnaryOp} {ts : List Token} {e : Expr} {n : Nat} :
      mark.Signs op → Phrase .factor ts e n →
      Phrase .factor (.mark mark :: ts) (.unary op e) (n + 1)
  /-- `factor := atom` -/
  | atom {ts : List Token} {e : Expr} {n : Nat} : Phrase .atom ts e n → Phrase .factor ts e n
  /-- `factor := atom ** factor` -/
  | power {ts us : List Token} {base exponent : Expr} {m n : Nat} :
      Phrase .atom ts base m → Phrase .factor us exponent n →
      Phrase .factor (ts ++ .mark .starStar :: us) (.binary .pow base exponent) (max m (n + 1))
  | number {value : Float} : Phrase .atom [.number value] (.number value) 0
  | name {word : String} : word ≠ "range" → Phrase .atom [.name word] (.name word) 0
  /-- `atom := range ( exprs )`, with one to three arguments. -/
  | range {ts : List Token} {args : List Expr} {n : Nat} :
      Phrase .exprs ts args n → args.length ≤ 3 →
      Phrase .atom (.name "range" :: .mark .parenOpen :: (ts ++ [.mark .parenClose]))
        (.range args) n
  /-- `atom := ( )` -/
  | unit : Phrase .atom [.mark .parenOpen, .mark .parenClose] (.tuple []) 0
  /-- `atom := ( expr )` -/
  | group {ts : List Token} {e : Expr} {n : Nat} :
      Phrase .expr ts e n →
      Phrase .atom (.mark .parenOpen :: (ts ++ [.mark .parenClose])) e n
  /-- `atom := ( expr , )` -/
  | single {ts : List Token} {e : Expr} {n : Nat} :
      Phrase .expr ts e n →
      Phrase .atom (.mark .parenOpen :: (ts ++ [.mark .comma, .mark .parenClose])) (.tuple [e]) n
  /-- `atom := ( expr , exprs )` -/
  | tuple {ts us : List Token} {e : Expr} {items : List Expr} {m n : Nat} :
      Phrase .expr ts e m → Phrase .exprs us items n →
      Phrase .atom (.mark .parenOpen :: (ts ++ .mark .comma :: (us ++ [.mark .parenClose])))
        (.tuple (e :: items)) (max m n)
  /-- `atom := [ ]` -/
  | empty : Phrase .atom [.mark .bracketOpen, .mark .bracketClose] (.list []) 0
  /-- `atom := [ exprs ]` -/
  | list {ts : List Token} {items : List Expr} {n : Nat} :
      Phrase .exprs ts items n →
      Phrase .atom (.mark .bracketOpen :: (ts ++ [.mark .bracketClose])) (.list items) n
  /-- `atom := [ expr clause { clause } ]` -/
  | comprehension {ts us : List Token} {element : Expr} {c : Clause} {more : List Clause}
      {m n : Nat} :
      Phrase .expr ts element m → Phrase .clauses us (c :: more) n →
      Phrase .atom (.mark .bracketOpen :: (ts ++ (us ++ [.mark .bracketClose])))
        (.comprehension element (c :: more)) (max m n)
  /-- `exprs := expr` -/
  | last {ts : List Token} {e : Expr} {n : Nat} : Phrase .expr ts e n → Phrase .exprs ts [e] n
  /-- `exprs := expr ,` -/
  | trailing {ts : List Token} {e : Expr} {n : Nat} :
      Phrase .expr ts e n → Phrase .exprs (ts ++ [.mark .comma]) [e] n
  /-- `exprs := expr , exprs` -/
  | more {ts us : List Token} {e : Expr} {items : List Expr} {m n : Nat} :
      Phrase .expr ts e m → Phrase .exprs us items n →
      Phrase .exprs (ts ++ .mark .comma :: us) (e :: items) (max m n)
  | clausesNil : Phrase .clauses [] [] 0
  | clausesCons {ts us : List Token} {c : Clause} {more : List Clause} {m n : Nat} :
      Phrase .clause ts c m → Phrase .clauses us more n →
      Phrase .clauses (ts ++ us) (c :: more) (max m n)
  /-- `clause := for name in disjunction { if disjunction }`, with a name that is neither the
  board's nor `range`. -/
  | clause {loopVar : String} {ts us : List Token} {items : Expr} {filters : List Expr}
      {m n : Nat} :
      loopVar ∉ ["x", "y", "w", "h", "any", "range"] → Phrase (.row .disjunction) ts items m →
      Phrase .filters us filters n →
      Phrase .clause (.mark .kwFor :: .name loopVar :: .mark .kwIn :: (ts ++ us))
        (.mk loopVar items filters) (max m n)
  | filtersNil : Phrase .filters [] [] 0
  | filtersCons {ts us : List Token} {condition : Expr} {more : List Expr} {m n : Nat} :
      Phrase (.row .disjunction) ts condition m → Phrase .filters us more n →
      Phrase .filters (.mark .kwIf :: (ts ++ us)) (condition :: more) (max m n)

/-! ### Ranks -/

/-- How tightly a token takes hold of the phrase before it; the less, the tighter. -/
def joinRank : Option Token → Nat
  | some (.mark .parenOpen) => 0
  | some (.mark .starStar) => 1
  | some (.mark .star) | some (.mark .slash) | some (.mark .slashSlash)
  | some (.mark .percent) => 2
  | some (.mark .plus) | some (.mark .minus) => 3
  | some (.mark .less) | some (.mark .lessEq) | some (.mark .greater)
  | some (.mark .greaterEq) | some (.mark .eqEq) | some (.mark .notEq) => 4
  | some (.mark .kwAnd) => 5
  | some (.mark .kwOr) => 6
  | some (.mark .kwIf) => 7
  | some (.mark .kwFor) => 8
  | _ => 9

/-- The rank of a row's operators. -/
def Row.rank : Row → Nat
  | term => 2
  | sum => 3
  | conjunction => 5
  | disjunction => 6

/-- Which symbols may start with a token: 0 for those that atoms start with, then signs, then `not`,
then the tokens that start no expression. -/
def startRank : Option Token → Nat
  | some (.number _) | some (.name _) => 0
  | some (.mark .parenOpen) | some (.mark .bracketOpen) => 0
  | some (.mark .plus) | some (.mark .minus) => 1
  | some (.mark .kwNot) => 2
  | _ => 3

/-- The greatest rank of a token that starts a phrase of a symbol. -/
def Symbol.startRank : Symbol → Nat
  | atom => 0
  | factor => 1
  | comparison => 1
  | operand .term | row .term | operand .sum | row .sum => 1
  | inversion => 2
  | operand .conjunction | row .conjunction | operand .disjunction | row .disjunction => 2
  | expr => 2
  | exprs => 2
  | _ => 3

theorem Row.Joins.joinRank_eq {r : Row} {m : Mark} {join : Expr → Expr → Expr}
    (h : r.Joins m join) : joinRank (some (.mark m)) = r.rank := by
  cases h <;> rfl

theorem Mark.Compares.joinRank_eq {m : Mark} {op : CompareOp} (h : m.Compares op) :
    joinRank (some (.mark m)) = 4 := by
  cases h <;> rfl

theorem Mark.Signs.startRank_eq {m : Mark} {op : UnaryOp} (h : m.Signs op) :
    startRank (some (.mark m)) = 1 := by
  cases h <;> rfl

theorem exists_joins_of_joinAt? {r : Row} {t : Option Token} {join : Expr → Expr → Expr}
    (h : r.joinAt? t = some join) : ∃ m, t = some (.mark m) ∧ r.Joins m join := by
  rcases t with _ | _ | _ | m
  · cases h
  · cases h
  · cases h
  · exact ⟨m, rfl, Row.joins_iff_join?.2 h⟩

theorem exists_compares_of_at? {t : Option Token} {op : CompareOp} (h : CompareOp.at? t = some op) :
    ∃ m, t = some (.mark m) ∧ m.Compares op := by
  rcases t with _ | _ | _ | m
  · cases h
  · cases h
  · cases h
  · exact ⟨m, rfl, Mark.compares_iff_ofMark?.2 h⟩

theorem exists_signs_of_signAt? {t : Option Token} {op : UnaryOp}
    (h : UnaryOp.signAt? t = some op) : ∃ m, t = some (.mark m) ∧ m.Signs op := by
  rcases t with _ | _ | _ | m
  · cases h
  · cases h
  · cases h
  · exact ⟨m, rfl, Mark.signs_iff_signAt?.2 h⟩

/-- A token of a greater rank than a row is none of its operators. -/
theorem joinAt?_eq_none {r : Row} {t : Option Token} (h : r.rank < joinRank t) :
    r.joinAt? t = none := by
  cases hat : r.joinAt? t with
  | none => rfl
  | some join =>
    obtain ⟨m, rfl, hjoin⟩ := exists_joins_of_joinAt? hat
    rw [hjoin.joinRank_eq] at h
    omega

/-- A token of a greater rank than a comparison is no comparator. -/
theorem at?_eq_none {t : Option Token} (h : 4 < joinRank t) : CompareOp.at? t = none := by
  cases hat : CompareOp.at? t with
  | none => rfl
  | some op =>
    obtain ⟨m, rfl, hop⟩ := exists_compares_of_at? hat
    rw [hop.joinRank_eq] at h
    omega

/-- What starts an atom is no sign. -/
theorem signAt?_eq_none {t : Option Token} (h : startRank t = 0) : UnaryOp.signAt? t = none := by
  cases hsign : UnaryOp.signAt? t with
  | none => rfl
  | some op =>
    obtain ⟨m, rfl, hsigns⟩ := exists_signs_of_signAt? hsign
    rw [hsigns.startRank_eq] at h
    omega

theorem Row.one_le_rank (r : Row) : 1 ≤ r.rank := by
  cases r <;> decide

/-! ### The first token of a phrase -/

/-- In a row of tokens that starts with one that starts an expression, the rest does not matter. -/
theorem head?_append_of_startRank {ts us : List Token} {n : Nat} (h : startRank ts.head? ≤ n)
    (hn : n < 3) : (ts ++ us).head? = ts.head? := by
  cases ts with
  | nil =>
    change 3 ≤ n at h
    omega
  | cons t ts => rfl

theorem startRank_le_three (t : Option Token) : startRank t ≤ 3 := by
  rcases t with _ | _ | _ | m
  · exact le_refl 3
  · exact Nat.zero_le 3
  · exact Nat.zero_le 3
  · cases m <;> decide

/-- A phrase starts with a token that starts its symbol. -/
theorem Phrase.startRank_le {s : Symbol} {ts : List Token} {t : s.Tree} {n : Nat}
    (h : Phrase s ts t n) : startRank ts.head? ≤ s.startRank := by
  induction h with
  | plain _ ih => exact ih
  | conditional _ _ _ ih _ _ =>
    rw [head?_append_of_startRank ih (by decide)]
    exact ih
  | @row r ts us first joined m n _ _ ih _ =>
    have hrank : (Symbol.row r).startRank = (Symbol.operand r).startRank := by cases r <;> rfl
    have hlt : (Symbol.operand r).startRank < 3 := by cases r <;> decide
    rw [hrank, head?_append_of_startRank ih hlt]
    exact ih
  | restNil => exact startRank_le_three _
  | restCons => exact startRank_le_three _
  | conjunction _ ih => exact ih
  | inversion _ ih => exact ih
  | term _ ih => exact ih
  | factor _ ih => exact ih
  | not => exact le_refl 2
  | comparison _ ih => exact ih.trans (by decide)
  | sum _ ih => exact ih
  | compare _ _ ih _ =>
    rw [head?_append_of_startRank ih (by decide)]
    exact ih
  | linksNil => exact startRank_le_three _
  | linksCons => exact startRank_le_three _
  | sign hsign _ _ => exact hsign.startRank_eq.le
  | atom _ ih => exact ih.trans (by decide)
  | power _ _ ih _ =>
    rw [head?_append_of_startRank ih (by decide)]
    exact ih.trans (by decide)
  | number => exact le_refl 0
  | name => exact le_refl 0
  | range => exact le_refl 0
  | unit => exact le_refl 0
  | group => exact le_refl 0
  | single => exact le_refl 0
  | tuple => exact le_refl 0
  | empty => exact le_refl 0
  | list => exact le_refl 0
  | comprehension => exact le_refl 0
  | last _ ih => exact ih
  | trailing _ ih =>
    rw [head?_append_of_startRank ih (by decide)]
    exact ih
  | more _ _ ih _ =>
    rw [head?_append_of_startRank ih (by decide)]
    exact ih
  | clausesNil => exact startRank_le_three _
  | clausesCons => exact startRank_le_three _
  | clause => exact startRank_le_three _
  | filtersNil => exact startRank_le_three _
  | filtersCons => exact startRank_le_three _

/-- Between commas there is at least one expression. -/
theorem Phrase.exprs_ne_nil {ts : List Token} {items : List Expr} {n : Nat}
    (h : Phrase .exprs ts items n) : items ≠ [] := by
  cases h <;> exact List.cons_ne_nil _ _

/-! ### Repetitions

A repetition is empty or starts with a token of the rank that it repeats. -/

section Repetitions

variable {us rest : List Token} {k n : Nat}

theorem joinRank_append_rest {r : Row} {lhs e : Expr} (h : Phrase (.rest r lhs) us e n)
    (hk : k < r.rank) (hrest : k < joinRank rest.head?) : k < joinRank (us ++ rest).head? := by
  cases h with
  | restNil => exact hrest
  | restCons hjoin _ _ =>
    rw [List.cons_append, List.head?_cons, hjoin.joinRank_eq]
    exact hk

theorem joinRank_append_links {links : List Link} (h : Phrase .links us links n) (hk : k < 4)
    (hrest : k < joinRank rest.head?) : k < joinRank (us ++ rest).head? := by
  cases h with
  | linksNil => exact hrest
  | linksCons hop _ _ =>
    rw [List.cons_append, List.head?_cons, hop.joinRank_eq]
    exact hk

theorem joinRank_append_filters {filters : List Expr} (h : Phrase .filters us filters n)
    (hk : k < 7) (hrest : k < joinRank rest.head?) : k < joinRank (us ++ rest).head? := by
  cases h with
  | filtersNil => exact hrest
  | filtersCons _ _ => exact hk

theorem joinRank_append_clauses {clauses : List Clause} (h : Phrase .clauses us clauses n)
    (hk : k < 8) (hrest : k < joinRank rest.head?) : k < joinRank (us ++ rest).head? := by
  cases h with
  | clausesNil => exact hrest
  | clausesCons hclause _ =>
    cases hclause with
    | clause _ _ _ => exact hk

end Repetitions

/-! ### Phrases without operators -/

section Operands

variable {ts : List Token} {e : Expr} {n : Nat}

/-- An operand on its own is a row. -/
theorem Phrase.row_of_operand {r : Row} (h : Phrase (.operand r) ts e n) :
    Phrase (.row r) ts e n := by
  have hrow := Phrase.row h .restNil
  rwa [List.append_nil, Nat.max_zero] at hrow

theorem Phrase.disjunction_of_inversion (h : Phrase .inversion ts e n) :
    Phrase (.row .disjunction) ts e n :=
  row_of_operand (.conjunction (row_of_operand (.inversion h)))

theorem Phrase.inversion_of_factor (h : Phrase .factor ts e n) : Phrase .inversion ts e n :=
  .comparison (.sum (row_of_operand (.term (row_of_operand (.factor h)))))

theorem Phrase.disjunction_of_atom (h : Phrase .atom ts e n) :
    Phrase (.row .disjunction) ts e n :=
  (Phrase.atom h).inversion_of_factor.disjunction_of_inversion

theorem Phrase.expr_of_factor (h : Phrase .factor ts e n) : Phrase .expr ts e (n + 1) :=
  .plain h.inversion_of_factor.disjunction_of_inversion

theorem Phrase.expr_of_atom (h : Phrase .atom ts e n) : Phrase .expr ts e (n + 1) :=
  .plain h.disjunction_of_atom

end Operands

end Waypoints
