import Waypoints.Proofs.Parsing.Soundness
/-!
# Every phrase is read

At a place where a phrase lies ahead, followed by a token that cannot continue it, the parser of its
symbol returns the tree of the phrase and stops behind it, or refuses the text because the levels of
the phrase do not fit under the limit (`Parser.Reads`). `Complete` states this for the phrases of
each symbol, with an allowance of twenty steps for each token; there is one theorem for each rule of
the grammar, and `Phrase.complete` is the induction.
-/

set_option autoImplicit false
set_option relaxedAutoImplicit false

namespace Waypoints

/-! ### Places and tokens -/

namespace Cursor

variable {c c' : Cursor} {t : Token} {ts us rest : List Token} {m n : Nat}

theorem peek?_of_tokens (h : c.tokens = t :: ts) : c.peek? = some t := by
  rw [peek?_eq, h, List.head?_cons]

theorem tokens_advance_of (h : c.tokens = t :: ts) : c.advance.tokens = ts := by
  rw [tokens_advance, h, List.tail_cons]

theorem depth_withDepth_le {depth : Nat} (h : ¬ maxNesting < depth) :
    (c.withDepth depth).depth ≤ maxNesting :=
  Nat.le_of_not_lt h

/-- A token whose rank is at most that of a symbol is not among those that may follow it. -/
theorem peek?_ne_of_joinRank (mark : Mark) {k : Nat} (h : c.tokens = rest)
    (hrest : k < joinRank rest.head?) (hmark : joinRank (some (.mark mark)) ≤ k) :
    c.peek? ≠ some (.mark mark) := by
  intro hpeek
  rw [peek?_eq, h] at hpeek
  rw [hpeek] at hrest
  omega

/-- A token of a greater rank than a symbol does not start its phrases. -/
theorem peek?_ne_of_startRank (mark : Mark) {k : Nat} (h : c.tokens = ts ++ rest)
    (hts : startRank ts.head? ≤ k) (hmark : k < startRank (some (.mark mark))) :
    c.peek? ≠ some (.mark mark) := by
  intro hpeek
  have hk : k < 3 := Nat.lt_of_lt_of_le hmark (startRank_le_three _)
  rw [peek?_eq, h, head?_append_of_startRank hts hk] at hpeek
  rw [hpeek] at hts
  omega

theorem Passes.tokens_of (h : c.Passes c' ts n) (htokens : c.tokens = ts ++ rest) :
    c'.tokens = rest :=
  List.append_cancel_left (h.tokens_eq.symm.trans htokens)

theorem Passes.congr (h : c.Passes c' ts m) (hts : ts = us) (hm : m = n) : c.Passes c' us n := by
  subst hts
  subst hm
  exact h

end Cursor

namespace Parser

open StateT (ensures_bind ensures_ite ensures_get)

/-! ### Complete parsers -/

/-- A refusal because of too many levels, of which so many would be open. -/
def IsTooDeep (levels : Nat) (e : ParseError) : Prop :=
  e.fault = .tooDeep ∧ maxNesting < levels

/-- Where the tokens `ts` lie ahead before the tokens `rest`, the parser passes over `ts` and
returns `a`, or refuses the text if `n` more levels are too many. -/
def Reads {α : Type} (p : Parser α) (ts : List Token) (a : α) (n : Nat) (rest : List Token) :
    Prop :=
  ∀ c, c.depth ≤ maxNesting → c.tokens = ts ++ rest →
    p.Ensures c (fun b c' ↦ b = a ∧ c.Passes c' ts n) (IsTooDeep (c.depth + n))

/-- A parser with at least `20 * ts.length + height` steps reads `ts` before every token of a rank
greater than `rank`. -/
def ReadsBefore {α : Type} (p : Nat → Parser α) (height rank : Nat) (ts : List Token) (a : α)
    (n : Nat) : Prop :=
  ∀ steps rest, 20 * ts.length + height ≤ steps → rank < joinRank rest.head? →
    (p steps).Reads ts a n rest

section Reads

variable {α : Type} {a : α} {ts us rest : List Token} {m n levels : Nat} {c c₁ : Cursor}

/-- A parser that goes on where another one has stopped. -/
theorem Reads.after {p : Parser α} (h : p.Reads ts a n rest) (hpre : c.Passes c₁ us m)
    (htokens : c₁.tokens = ts ++ rest) (hn : n ≤ levels) {ok : α → Cursor → Prop}
    (hok : ∀ c₂, c.Passes c₂ (us ++ ts) (max m n) → c₂.tokens = rest → ok a c₂) :
    p.Ensures c₁ ok (IsTooDeep (c.depth + levels)) := by
  refine (h c₁ hpre.depth_le htokens).mono ?_ ?_
  · rintro b c₂ ⟨rfl, hpass⟩
    exact hok c₂ (hpre.trans hpass) (hpass.tokens_of htokens)
  · rintro e ⟨hfault, hdeep⟩
    have := hpre.depth_eq
    exact ⟨hfault, by omega⟩

/-- A parser one level down. -/
theorem Reads.nested {p : Parser α} (h : p.Reads ts a n rest) :
    (nested p).Reads ts a (n + 1) rest := by
  intro c hc htokens
  rw [ensures_nested]
  split
  · exact ⟨rfl, by omega⟩
  next hdeep =>
  refine (h _ (Cursor.depth_withDepth_le hdeep) htokens).mono ?_ ?_
  · rintro b c' ⟨rfl, hpass⟩
    exact ⟨rfl, hpass.up⟩
  · rintro e ⟨hfault, hlevels⟩
    rw [Cursor.depth_withDepth] at hlevels
    exact ⟨hfault, by omega⟩

/-- No parser reads anything without steps, so that one step can be taken off the allowance. -/
theorem ReadsBefore.of_succ {p : Nat → Parser α} {height rank : Nat} (hheight : 0 < height)
    (h : ∀ steps rest, 20 * ts.length + height ≤ steps + 1 → rank < joinRank rest.head? →
      (p (steps + 1)).Reads ts a n rest) : ReadsBefore p height rank ts a n := by
  intro steps rest hsteps hrest
  cases steps with
  | zero => omega
  | succ steps => exact h steps rest hsteps hrest

/-- A parser that goes on where another one has stopped, before a token that cannot continue it. -/
theorem ReadsBefore.after {p : Nat → Parser α} {height rank steps : Nat}
    (h : ReadsBefore p height rank ts a n) (hsteps : 20 * ts.length + height ≤ steps)
    (hpre : c.Passes c₁ us m) (htokens : c₁.tokens = ts ++ rest)
    (hrest : rank < joinRank rest.head?) (hn : n ≤ levels) {ok : α → Cursor → Prop}
    (hok : ∀ c₂, c.Passes c₂ (us ++ ts) (max m n) → c₂.tokens = rest → ok a c₂) :
    (p steps).Ensures c₁ ok (IsTooDeep (c.depth + levels)) :=
  (h steps rest hsteps hrest).after hpre htokens hn hok

end Reads

/-- How many calls a row's parser makes before it looks at a token. -/
def rowHeight : Row → Nat
  | .disjunction => 12
  | .conjunction => 10
  | .sum => 6
  | .term => 4

theorem four_le_rowHeight (r : Row) : 4 ≤ rowHeight r := by
  cases r <;> decide

theorem rowHeight_le (r : Row) : rowHeight r ≤ 12 := by
  cases r <;> decide

/-- The marks that close brackets. -/
def Closes (close : Mark) : Prop :=
  close = .parenClose ∨ close = .bracketClose

section Closes

variable {close : Mark}

theorem Closes.startRank_eq (h : Closes close) : startRank (some (.mark close)) = 3 := by
  rcases h with rfl | rfl <;> rfl

theorem Closes.joinRank_eq (h : Closes close) : joinRank (some (.mark close)) = 9 := by
  rcases h with rfl | rfl <;> rfl

theorem Closes.ne_comma (h : Closes close) : close ≠ .comma := by
  rcases h with rfl | rfl <;> decide

end Closes

/-- Expressions between commas are read up to and with a closing mark. -/
def ReadsUpTo (close : Mark) (ts : List Token) (items : List Expr) (n : Nat) : Prop :=
  ∀ steps rest, 20 * ts.length ≤ steps → (sequence steps close).Reads ts items n rest

/-- One or more expressions are read before every mark that may close them, and as the items of a
list. -/
structure ReadsItems (ts : List Token) (items : List Expr) (n : Nat) : Prop where
  upTo : ∀ close, Closes close → ReadsUpTo close (ts ++ [.mark close]) items n
  list : ReadsBefore bracketed 19 0 (ts ++ [.mark .bracketClose]) (.list items) n

/-- The parser of a symbol reads a phrase of it; a clause is read after its first mark. -/
def Complete : (s : Symbol) → List Token → s.Tree → Nat → Prop
  | .expr, ts, e, n => ReadsBefore Parser.expr 13 7 ts e n
  | .row r, ts, e, n => ReadsBefore (row · r) (rowHeight r) r.rank ts e n
  | .rest r lhs, ts, e, n => ∀ steps rest, 20 * ts.length + 1 ≤ steps →
    r.rank < joinRank rest.head? → ∀ c, c.depth ≤ maxNesting → c.tokens = ts ++ rest →
      (rowRest steps r lhs).Ensures c (fun b c' ↦ b = e ∧ c.Passes (c'.withDepth c.depth) ts n)
        (IsTooDeep (c.depth + n))
  | .operand r, ts, e, n => ReadsBefore (operand · r) (rowHeight r - 1) (r.rank - 1) ts e n
  | .inversion, ts, e, n => ReadsBefore inversion 8 4 ts e n
  | .comparison, ts, e, n => ReadsBefore comparison 7 4 ts e n
  | .links, ts, more, n => ReadsBefore links 1 4 ts more n
  | .factor, ts, e, n => ReadsBefore factor 2 1 ts e n
  | .atom, ts, e, n => ReadsBefore atom 1 0 ts e n
  | .exprs, ts, items, n => ReadsItems ts items n
  | .clauses, ts, more, n => ReadsBefore clauses 2 8 ts more n
  | .clause, ts, c, n => ∃ us, ts = .mark .kwFor :: us ∧ ReadsBefore clause 1 7 us c n
  | .filters, ts, more, n => ReadsBefore filters 1 7 ts more n

section Rules

variable {ts us ws : List Token} {k m n : Nat}

/-! ### Expressions and rows -/

theorem complete_plain {e : Expr} (ih : ReadsBefore (row · .disjunction) 12 6 ts e n) :
    ReadsBefore expr 13 7 ts e (n + 1) := by
  apply ReadsBefore.of_succ (Nat.succ_pos _)
  intro steps rest hsteps hrest
  rw [Parser.expr]
  refine Reads.nested fun c hc htokens ↦ ?_
  rw [ensures_bind]
  refine ih.after (by omega) (.refl hc) htokens (by omega) le_rfl fun c₁ hpass hrest₁ ↦ ?_
  have hif := Cursor.peek?_ne_of_joinRank .kwIf hrest₁ hrest le_rfl
  rw [ensures_bind, ensures_eat, if_neg hif, if_neg Bool.false_ne_true]
  exact ⟨rfl, hpass.congr rfl (Nat.zero_max n)⟩

theorem complete_conditional {value condition otherwise : Expr}
    (ihv : ReadsBefore (row · .disjunction) 12 6 ts value k)
    (ihc : ReadsBefore (row · .disjunction) 12 6 us condition m)
    (iho : ReadsBefore expr 13 7 ws otherwise n) :
    ReadsBefore expr 13 7 (ts ++ .mark .kwIf :: (us ++ .mark .kwElse :: ws))
      (.conditional value condition otherwise) (max k (max m n) + 1) := by
  apply ReadsBefore.of_succ (Nat.succ_pos _)
  intro steps rest hsteps hrest
  simp only [List.length_append, List.length_cons] at hsteps
  rw [Parser.expr]
  refine Reads.nested fun c hc htokens ↦ ?_
  simp only [List.append_assoc, List.cons_append] at htokens
  rw [ensures_bind]
  refine ihv.after (by omega) (.refl hc) htokens (show 6 < 7 by decide) (by omega)
    fun c₁ hvalue htokens₁ ↦ ?_
  have hif := Cursor.peek?_of_tokens htokens₁
  rw [ensures_bind, ensures_eat, if_pos hif, if_pos rfl, ensures_bind]
  refine ihc.after (by omega) (hvalue.concat hif) (Cursor.tokens_advance_of htokens₁)
    (show 6 < 9 by decide) (by omega) fun c₂ hcondition htokens₂ ↦ ?_
  have helse := Cursor.peek?_of_tokens htokens₂
  rw [ensures_bind, ensures_expect, if_pos helse, ensures_bind]
  refine iho.after (by omega) (hcondition.concat helse) (Cursor.tokens_advance_of htokens₂) hrest
    (by omega) fun c₃ hotherwise _ ↦ ?_
  exact ⟨rfl, hotherwise.congr (by simp) (by omega)⟩

theorem complete_row {r : Row} {first joined : Expr}
    (ihf : ReadsBefore (operand · r) (rowHeight r - 1) (r.rank - 1) ts first m)
    (hrow : Phrase (.rest r first) us joined n) (ihr : Complete (.rest r first) us joined n) :
    ReadsBefore (row · r) (rowHeight r) r.rank (ts ++ us) joined (max m n) := by
  have hheight := four_le_rowHeight r
  have hrank := r.one_le_rank
  apply ReadsBefore.of_succ (by omega)
  intro steps rest hsteps hrest c hc htokens
  rw [List.length_append] at hsteps
  rw [List.append_assoc] at htokens
  rw [Parser.row, ensures_bind]
  refine ihf.after (by omega) (.refl hc) htokens
    (joinRank_append_rest hrow (by omega) (by omega)) (by omega) fun c₁ hfirst htokens₁ ↦ ?_
  rw [ensures_bind, ensures_get, ensures_bind]
  refine (ihr steps rest (by omega) hrest c₁ hfirst.depth_le htokens₁).mono ?_ ?_
  · rintro e c₂ ⟨rfl, hpass⟩
    exact ⟨rfl, (hfirst.trans hpass).congr rfl (by omega)⟩
  · rintro e ⟨hfault, hlevels⟩
    have := hfirst.depth_eq
    exact ⟨hfault, by omega⟩

theorem complete_restNil {r : Row} {lhs : Expr} : Complete (.rest r lhs) [] lhs 0 := by
  rintro (_ | steps) rest hsteps hrest c hc htokens
  · omega
  have hat : r.joinAt? c.peek? = none := by
    rw [c.peek?_eq, htokens]
    exact joinAt?_eq_none hrest
  rw [rowRest, ensures_bind, ensures_peek?, hat]
  exact ⟨rfl, .refl hc⟩

theorem complete_restCons {r : Row} {mark : Mark} {join : Expr → Expr → Expr}
    {lhs rhs joined : Expr} (hjoin : r.Joins mark join)
    (iho : ReadsBefore (operand · r) (rowHeight r - 1) (r.rank - 1) ts rhs m)
    (hrow : Phrase (.rest r (join lhs rhs)) us joined n)
    (ihr : Complete (.rest r (join lhs rhs)) us joined n) :
    Complete (.rest r lhs) (.mark mark :: (ts ++ us)) joined (max m n + 1) := by
  have hheight := rowHeight_le r
  have hrank := r.one_le_rank
  rintro (_ | steps) rest hsteps hrest c hc htokens
  · omega
  simp only [List.length_append, List.length_cons] at hsteps
  simp only [List.append_assoc, List.cons_append] at htokens
  have hmark := Cursor.peek?_of_tokens htokens
  have hat : r.joinAt? c.peek? = some join := by
    rw [hmark]
    exact Row.joins_iff_join?.1 hjoin
  rw [rowRest, ensures_bind, ensures_peek?, hat]
  dsimp only
  rw [ensures_bind, ensures_advance, ensures_bind, ensures_descend]
  split
  · next hdeep =>
    rw [Cursor.depth_advance] at hdeep
    exact ⟨rfl, by omega⟩
  next hdeep =>
  have hlevels : c.depth + (max m n + 1) =
      (c.advance.withDepth (c.advance.depth + 1)).depth + max m n := by
    rw [Cursor.depth_withDepth, Cursor.depth_advance]
    omega
  have htail : (c.advance.withDepth (c.advance.depth + 1)).tokens = ts ++ (us ++ rest) :=
    Cursor.tokens_advance_of htokens
  rw [ensures_bind, hlevels]
  refine iho.after (by omega) (.refl (Cursor.depth_withDepth_le hdeep)) htail
    (joinRank_append_rest hrow (by omega) (by omega)) (by omega) fun c₁ hoperand htokens₁ ↦ ?_
  refine (ihr steps rest (by omega) hrest c₁ hoperand.depth_le htokens₁).mono ?_ ?_
  · rintro e c₂ ⟨rfl, hpass⟩
    rw [hoperand.depth_eq] at hpass
    exact ⟨rfl, .cons hmark ((hoperand.trans hpass).up_of_withDepth.congr rfl (by omega))⟩
  · rintro e ⟨hfault, hdeep⟩
    have := hoperand.depth_eq
    exact ⟨hfault, by omega⟩

/-- A parser that only calls another one, which reads the same phrases. -/
theorem complete_call {p q : Nat → Parser Expr} {height rank height' rank' : Nat} {e : Expr}
    (hcall : ∀ steps, q (steps + 1) = p steps) (hheight : height + 1 ≤ height')
    (hrank : rank ≤ rank') (ih : ReadsBefore p height rank ts e n) :
    ReadsBefore q height' rank' ts e n := by
  apply ReadsBefore.of_succ (by omega)
  intro steps rest hsteps hrest
  rw [hcall]
  exact ih steps rest (by omega) (by omega)

/-! ### Negations, comparisons and factors -/

theorem complete_not {e : Expr} (ih : ReadsBefore inversion 8 4 ts e n) :
    ReadsBefore inversion 8 4 (.mark .kwNot :: ts) (.unary .not e) (n + 1) := by
  apply ReadsBefore.of_succ (Nat.succ_pos _)
  intro steps rest hsteps hrest c hc htokens
  rw [List.length_cons] at hsteps
  have hnot := Cursor.peek?_of_tokens htokens
  rw [Parser.inversion, ensures_bind, ensures_eat, if_pos hnot, if_pos rfl, ensures_bind]
  refine (ih steps rest (by omega) hrest).nested.after ((Cursor.Passes.refl hc).concat hnot)
    (Cursor.tokens_advance_of htokens) le_rfl fun c₁ hpass _ ↦ ?_
  exact ⟨rfl, hpass.congr rfl (by omega)⟩

theorem complete_comparison {e : Expr} (hstart : startRank ts.head? ≤ 1)
    (ih : ReadsBefore comparison 7 4 ts e n) : ReadsBefore inversion 8 4 ts e n := by
  apply ReadsBefore.of_succ (Nat.succ_pos _)
  intro steps rest hsteps hrest c hc htokens
  have hnot := Cursor.peek?_ne_of_startRank .kwNot htokens hstart (show 1 < 2 by decide)
  rw [Parser.inversion, ensures_bind, ensures_eat, if_neg hnot, if_neg Bool.false_ne_true]
  exact ih steps rest (by omega) hrest c hc htokens

theorem complete_compare {first : Expr} {links : List Link} {e : Expr}
    (he : e = match links with
      | [] => first
      | link :: more => .compare first (link :: more))
    (ihf : ReadsBefore (row · .sum) 6 3 ts first m) (hlinks : Phrase .links us links n)
    (ihl : ReadsBefore Parser.links 1 4 us links n) :
    ReadsBefore comparison 7 4 (ts ++ us) e (max m n) := by
  apply ReadsBefore.of_succ (Nat.succ_pos _)
  intro steps rest hsteps hrest c hc htokens
  rw [List.length_append] at hsteps
  rw [List.append_assoc] at htokens
  rw [Parser.comparison, ensures_bind]
  refine ihf.after (by omega) (.refl hc) htokens
    (joinRank_append_links hlinks (by omega) (by omega)) (by omega) fun c₁ hfirst htokens₁ ↦ ?_
  rw [ensures_bind]
  refine ihl.after (by omega) hfirst htokens₁ hrest (by omega) fun c₂ hpass _ ↦ ?_
  subst he
  have hall := hpass.congr rfl (show max (max 0 m) n = max m n by omega)
  cases links with
  | nil => exact ⟨rfl, hall⟩
  | cons link more => exact ⟨rfl, hall⟩

theorem complete_linksNil : ReadsBefore links 1 4 [] [] 0 := by
  apply ReadsBefore.of_succ (Nat.succ_pos _)
  intro steps rest hsteps hrest c hc htokens
  have hat : CompareOp.at? c.peek? = none := by
    rw [c.peek?_eq, htokens]
    exact at?_eq_none hrest
  rw [Parser.links, ensures_bind, ensures_peek?, hat]
  exact ⟨rfl, .refl hc⟩

theorem complete_linksCons {mark : Mark} {op : CompareOp} {operand : Expr} {more : List Link}
    (hop : mark.Compares op) (iho : ReadsBefore (row · .sum) 6 3 ts operand m)
    (hmore : Phrase .links us more n) (ihm : ReadsBefore links 1 4 us more n) :
    ReadsBefore links 1 4 (.mark mark :: (ts ++ us)) (.mk op operand :: more) (max m n) := by
  apply ReadsBefore.of_succ (Nat.succ_pos _)
  intro steps rest hsteps hrest c hc htokens
  simp only [List.length_append, List.length_cons] at hsteps
  simp only [List.append_assoc, List.cons_append] at htokens
  have hmark := Cursor.peek?_of_tokens htokens
  have hat : CompareOp.at? c.peek? = some op := by
    rw [hmark]
    exact Mark.compares_iff_ofMark?.1 hop
  rw [Parser.links, ensures_bind, ensures_peek?, hat]
  dsimp only
  rw [ensures_bind, ensures_advance, ensures_bind]
  refine iho.after (by omega) ((Cursor.Passes.refl hc).concat hmark)
    (Cursor.tokens_advance_of htokens) (joinRank_append_links hmore (by omega) (by omega))
    (by omega) fun c₁ hoperand htokens₁ ↦ ?_
  rw [ensures_bind]
  refine ihm.after (by omega) hoperand htokens₁ hrest (by omega) fun c₂ hpass _ ↦ ?_
  exact ⟨rfl, hpass.congr (by simp) (by omega)⟩

theorem complete_sign {mark : Mark} {op : UnaryOp} {e : Expr} (hsigns : mark.Signs op)
    (ih : ReadsBefore factor 2 1 ts e n) :
    ReadsBefore factor 2 1 (.mark mark :: ts) (.unary op e) (n + 1) := by
  apply ReadsBefore.of_succ (Nat.succ_pos _)
  intro steps rest hsteps hrest c hc htokens
  rw [List.length_cons] at hsteps
  have hmark := Cursor.peek?_of_tokens htokens
  rw [Parser.factor, ensures_bind, ensures_peek?, hmark, Mark.signs_iff_signAt?.1 hsigns]
  dsimp only
  rw [ensures_bind, ensures_advance, ensures_bind]
  refine (ih steps rest (by omega) hrest).nested.after ((Cursor.Passes.refl hc).concat hmark)
    (Cursor.tokens_advance_of htokens) le_rfl fun c₁ hpass _ ↦ ?_
  exact ⟨rfl, hpass.congr rfl (by omega)⟩

theorem complete_atom {e : Expr} (hstart : startRank ts.head? = 0)
    (ih : ReadsBefore atom 1 0 ts e n) : ReadsBefore factor 2 1 ts e n := by
  apply ReadsBefore.of_succ (Nat.succ_pos _)
  intro steps rest hsteps hrest c hc htokens
  have hsign : UnaryOp.signAt? c.peek? = none := by
    rw [c.peek?_eq, htokens, head?_append_of_startRank hstart.le (by decide)]
    exact signAt?_eq_none hstart
  rw [Parser.factor, ensures_bind, ensures_peek?, hsign]
  dsimp only
  rw [ensures_bind]
  refine ih.after (by omega) (.refl hc) htokens (by omega) le_rfl fun c₁ hpass hrest₁ ↦ ?_
  have hpower := Cursor.peek?_ne_of_joinRank .starStar hrest₁ hrest le_rfl
  rw [ensures_bind, ensures_eat, if_neg hpower, if_neg Bool.false_ne_true]
  exact ⟨rfl, hpass.congr rfl (Nat.zero_max n)⟩

theorem complete_power {base exponent : Expr} (hstart : startRank ts.head? = 0)
    (ihb : ReadsBefore atom 1 0 ts base m) (ihe : ReadsBefore factor 2 1 us exponent n) :
    ReadsBefore factor 2 1 (ts ++ .mark .starStar :: us) (.binary .pow base exponent)
      (max m (n + 1)) := by
  apply ReadsBefore.of_succ (Nat.succ_pos _)
  intro steps rest hsteps hrest c hc htokens
  simp only [List.length_append, List.length_cons] at hsteps
  simp only [List.append_assoc, List.cons_append] at htokens
  have hsign : UnaryOp.signAt? c.peek? = none := by
    rw [c.peek?_eq, htokens, head?_append_of_startRank hstart.le (by decide)]
    exact signAt?_eq_none hstart
  rw [Parser.factor, ensures_bind, ensures_peek?, hsign]
  dsimp only
  rw [ensures_bind]
  refine ihb.after (by omega) (.refl hc) htokens (show 0 < 1 by decide) (by omega)
    fun c₁ hbase htokens₁ ↦ ?_
  have hpower := Cursor.peek?_of_tokens htokens₁
  rw [ensures_bind, ensures_eat, if_pos hpower, if_pos rfl, ensures_bind]
  refine (ihe steps rest (by omega) hrest).nested.after (hbase.concat hpower)
    (Cursor.tokens_advance_of htokens₁) (by omega) fun c₂ hpass _ ↦ ?_
  exact ⟨rfl, hpass.congr (by simp) (by omega)⟩

/-! ### Clauses -/

theorem complete_filtersNil : ReadsBefore filters 1 7 [] [] 0 := by
  apply ReadsBefore.of_succ (Nat.succ_pos _)
  intro steps rest hsteps hrest c hc htokens
  have hif := Cursor.peek?_ne_of_joinRank .kwIf htokens hrest le_rfl
  rw [Parser.filters, ensures_bind, ensures_eat, if_neg hif, if_neg Bool.false_ne_true]
  exact ⟨rfl, .refl hc⟩

theorem complete_filtersCons {condition : Expr} {more : List Expr}
    (ihc : ReadsBefore (row · .disjunction) 12 6 ts condition m)
    (hmore : Phrase .filters us more n) (ihm : ReadsBefore filters 1 7 us more n) :
    ReadsBefore filters 1 7 (.mark .kwIf :: (ts ++ us)) (condition :: more) (max m n) := by
  apply ReadsBefore.of_succ (Nat.succ_pos _)
  intro steps rest hsteps hrest c hc htokens
  simp only [List.length_append, List.length_cons] at hsteps
  simp only [List.append_assoc, List.cons_append] at htokens
  have hif := Cursor.peek?_of_tokens htokens
  rw [Parser.filters, ensures_bind, ensures_eat, if_pos hif, if_pos rfl, ensures_bind]
  refine ihc.after (by omega) ((Cursor.Passes.refl hc).concat hif)
    (Cursor.tokens_advance_of htokens) (joinRank_append_filters hmore (by omega) (by omega))
    (by omega) fun c₁ hcondition htokens₁ ↦ ?_
  rw [ensures_bind]
  refine ihm.after (by omega) hcondition htokens₁ hrest (by omega) fun c₂ hpass _ ↦ ?_
  exact ⟨rfl, hpass.congr (by simp) (by omega)⟩

theorem complete_clause {loopVar : String} {items : Expr} {filters : List Expr}
    (hfree : loopVar ∉ reservedNames) (ihi : ReadsBefore (row · .disjunction) 12 6 ts items m)
    (hfilters : Phrase .filters us filters n) (ihf : ReadsBefore Parser.filters 1 7 us filters n) :
    ReadsBefore clause 1 7 (.name loopVar :: .mark .kwIn :: (ts ++ us))
      (.mk loopVar items filters) (max m n) := by
  apply ReadsBefore.of_succ (Nat.succ_pos _)
  intro steps rest hsteps hrest c hc htokens
  simp only [List.length_append, List.length_cons] at hsteps
  simp only [List.append_assoc, List.cons_append] at htokens
  have hname := Cursor.peek?_of_tokens htokens
  have hin := Cursor.peek?_of_tokens (Cursor.tokens_advance_of htokens)
  rw [Parser.clause, ensures_bind, ensures_peek?, ensures_bind, ensures_advance, hname]
  dsimp only
  rw [if_neg (mt List.contains_iff_mem.1 hfree), ensures_bind, ensures_expect, if_pos hin,
    ensures_bind]
  refine ihi.after (by omega) (((Cursor.Passes.refl hc).concat hname).concat hin)
    (Cursor.tokens_advance_of (Cursor.tokens_advance_of htokens))
    (joinRank_append_filters hfilters (by omega) (by omega)) (by omega) fun c₁ hitems htokens₁ ↦ ?_
  rw [ensures_bind]
  refine ihf.after (by omega) hitems htokens₁ hrest (by omega) fun c₂ hpass _ ↦ ?_
  exact ⟨rfl, hpass.congr (by simp) (by omega)⟩

theorem complete_clausesNil : ReadsBefore clauses 2 8 [] [] 0 := by
  apply ReadsBefore.of_succ (Nat.succ_pos _)
  intro steps rest hsteps hrest c hc htokens
  have hfor := Cursor.peek?_ne_of_joinRank .kwFor htokens hrest le_rfl
  rw [Parser.clauses, ensures_bind, ensures_eat, if_neg hfor, if_neg Bool.false_ne_true]
  exact ⟨rfl, .refl hc⟩

theorem complete_clausesCons {first : Clause} {more : List Clause}
    (ihf : ∃ ws, ts = .mark .kwFor :: ws ∧ ReadsBefore clause 1 7 ws first m)
    (hmore : Phrase .clauses us more n) (ihm : ReadsBefore clauses 2 8 us more n) :
    ReadsBefore clauses 2 8 (ts ++ us) (first :: more) (max m n) := by
  obtain ⟨ws, rfl, ihf⟩ := ihf
  apply ReadsBefore.of_succ (Nat.succ_pos _)
  intro steps rest hsteps hrest c hc htokens
  simp only [List.length_append, List.length_cons] at hsteps
  simp only [List.append_assoc, List.cons_append] at htokens
  have hfor := Cursor.peek?_of_tokens htokens
  rw [Parser.clauses, ensures_bind, ensures_eat, if_pos hfor, if_pos rfl, ensures_bind]
  refine ihf.after (by omega) ((Cursor.Passes.refl hc).concat hfor)
    (Cursor.tokens_advance_of htokens) (joinRank_append_clauses hmore (by omega) (by omega))
    (by omega) fun c₁ hfirst htokens₁ ↦ ?_
  rw [ensures_bind]
  refine ihm.after (by omega) hfirst htokens₁ hrest (by omega) fun c₂ hpass _ ↦ ?_
  exact ⟨rfl, hpass.congr (by simp) (by omega)⟩

/-! ### Rows of expressions -/

theorem complete_closed {close : Mark} : ReadsUpTo close [.mark close] [] 0 := by
  rintro (_ | steps) rest hsteps c hc htokens
  · simp at hsteps
  have hclose := Cursor.peek?_of_tokens htokens
  rw [Parser.sequence, ensures_bind, ensures_eat, if_pos hclose, if_pos rfl]
  exact ⟨rfl, (Cursor.Passes.refl hc).concat hclose⟩

theorem complete_item {close : Mark} {e : Expr} (hclose : Closes close)
    (hstart : startRank ts.head? ≤ 2)
    (ih : ReadsBefore expr 13 7 ts e n) : ReadsUpTo close (ts ++ [.mark close]) [e] n := by
  rintro (_ | steps) rest hsteps c hc htokens
  · simp at hsteps
  simp only [List.length_append, List.length_cons, List.length_nil] at hsteps
  rw [List.append_assoc] at htokens
  have hstartclose := hclose.startRank_eq
  have hnone := Cursor.peek?_ne_of_startRank close htokens hstart (by omega)
  have hjoin : 7 < joinRank (some (.mark close)) := by
    rw [hclose.joinRank_eq]
    decide
  rw [Parser.sequence, ensures_bind, ensures_eat, if_neg hnone, if_neg Bool.false_ne_true,
    ensures_bind]
  refine ih.after (by omega) (.refl hc) htokens hjoin le_rfl fun c₁ hitem htokens₁ ↦ ?_
  have hend := Cursor.peek?_of_tokens htokens₁
  have hcomma : c₁.peek? ≠ some (.mark .comma) := by
    rw [hend]
    simpa using hclose.ne_comma
  rw [ensures_bind, ensures_eat, if_neg hcomma, if_neg Bool.false_ne_true, ensures_bind,
    ensures_expect, if_pos hend]
  exact ⟨rfl, (hitem.concat hend).congr rfl (Nat.zero_max n)⟩

theorem complete_items {close : Mark} {e : Expr} {items : List Expr}
    (hclose : Closes close) (hstart : startRank ts.head? ≤ 2)
    (ihe : ReadsBefore expr 13 7 ts e m) (ihi : ReadsUpTo close us items n) :
    ReadsUpTo close (ts ++ .mark .comma :: us) (e :: items) (max m n) := by
  rintro (_ | steps) rest hsteps c hc htokens
  · simp at hsteps
  simp only [List.length_append, List.length_cons] at hsteps
  simp only [List.append_assoc, List.cons_append] at htokens
  have hstartclose := hclose.startRank_eq
  have hnone := Cursor.peek?_ne_of_startRank close htokens hstart (by omega)
  rw [Parser.sequence, ensures_bind, ensures_eat, if_neg hnone, if_neg Bool.false_ne_true,
    ensures_bind]
  refine ihe.after (by omega) (.refl hc) htokens (show 7 < 9 by decide) (by omega)
    fun c₁ hitem htokens₁ ↦ ?_
  have hcomma := Cursor.peek?_of_tokens htokens₁
  rw [ensures_bind, ensures_eat, if_pos hcomma, if_pos rfl, ensures_bind]
  refine (ihi steps rest (by omega)).after (hitem.concat hcomma)
    (Cursor.tokens_advance_of htokens₁) (by omega) fun c₂ hpass _ ↦ ?_
  exact ⟨rfl, hpass.congr (by simp) (by omega)⟩

/-! ### Atoms -/

theorem complete_number {value : Float} :
    ReadsBefore atom 1 0 [.number value] (.number value) 0 := by
  apply ReadsBefore.of_succ (Nat.succ_pos _)
  intro steps rest hsteps hrest c hc htokens
  have hpeek := Cursor.peek?_of_tokens htokens
  rw [Parser.atom, ensures_bind, ensures_peek?, hpeek]
  exact ⟨rfl, (Cursor.Passes.refl hc).concat hpeek⟩

theorem complete_name {word : String} (hword : word ≠ "range") :
    ReadsBefore atom 1 0 [.name word] (.name word) 0 := by
  apply ReadsBefore.of_succ (Nat.succ_pos _)
  intro steps rest hsteps hrest c hc htokens
  have hpeek := Cursor.peek?_of_tokens htokens
  have hopen := Cursor.peek?_ne_of_joinRank .parenOpen (Cursor.tokens_advance_of htokens)
    hrest le_rfl
  rw [Parser.atom, ensures_bind, ensures_peek?, hpeek]
  dsimp only
  rw [ensures_bind, ensures_advance, if_neg hword, ensures_bind, ensures_peek?, if_neg hopen]
  exact ⟨rfl, (Cursor.Passes.refl hc).concat hpeek⟩

theorem complete_range {args : List Expr} (hargs : args ≠ []) (harity : args.length ≤ 3)
    (ih : ReadsItems ts args n) :
    ReadsBefore atom 1 0 (.name "range" :: .mark .parenOpen :: (ts ++ [.mark .parenClose]))
      (.range args) n := by
  apply ReadsBefore.of_succ (Nat.succ_pos _)
  intro steps rest hsteps hrest c hc htokens
  simp only [List.length_append, List.length_cons, List.length_nil] at hsteps
  simp only [List.cons_append] at htokens
  have hpeek := Cursor.peek?_of_tokens htokens
  have hopen := Cursor.peek?_of_tokens (Cursor.tokens_advance_of htokens)
  rw [Parser.atom, ensures_bind, ensures_peek?, hpeek]
  dsimp only
  rw [ensures_bind, ensures_advance, if_pos rfl, ensures_bind, ensures_expect, if_pos hopen,
    ensures_bind]
  have hlength : 20 * (ts ++ [Token.mark .parenClose]).length ≤ steps := by
    rw [List.length_append, List.length_singleton]
    omega
  refine (ih.upTo .parenClose (.inl rfl) steps rest hlength).after
    (((Cursor.Passes.refl hc).concat hpeek).concat hopen)
    (Cursor.tokens_advance_of (Cursor.tokens_advance_of htokens)) le_rfl fun c₁ hpass _ ↦ ?_
  have hcount : ¬ (args.isEmpty || decide (3 < args.length)) = true := by
    rw [Bool.or_eq_true, List.isEmpty_iff, decide_eq_true_eq]
    rintro (hnil | hlong)
    · exact hargs hnil
    · omega
  rw [if_neg hcount]
  exact ⟨rfl, hpass.congr rfl (Nat.zero_max n)⟩

/-- What follows an opening parenthesis. -/
theorem complete_parenthesized {e : Expr} (ih : ReadsBefore parenthesized 19 0 ts e n) :
    ReadsBefore atom 1 0 (.mark .parenOpen :: ts) e n := by
  apply ReadsBefore.of_succ (Nat.succ_pos _)
  intro steps rest hsteps hrest c hc htokens
  rw [List.length_cons] at hsteps
  have hpeek := Cursor.peek?_of_tokens htokens
  rw [Parser.atom, ensures_bind, ensures_peek?, hpeek]
  dsimp only
  rw [ensures_bind, ensures_advance]
  refine ih.after (by omega) ((Cursor.Passes.refl hc).concat hpeek)
    (Cursor.tokens_advance_of htokens) hrest le_rfl fun c₁ hpass _ ↦ ?_
  exact ⟨rfl, hpass.congr rfl (Nat.zero_max n)⟩

theorem complete_unit : ReadsBefore parenthesized 19 0 [.mark .parenClose] (.tuple []) 0 := by
  apply ReadsBefore.of_succ (Nat.succ_pos _)
  intro steps rest hsteps hrest c hc htokens
  have hclose := Cursor.peek?_of_tokens htokens
  rw [Parser.parenthesized, ensures_bind, ensures_eat, if_pos hclose, if_pos rfl]
  exact ⟨rfl, (Cursor.Passes.refl hc).concat hclose⟩

theorem complete_group {e : Expr} (hstart : startRank ts.head? ≤ 2)
    (ih : ReadsBefore expr 13 7 ts e n) :
    ReadsBefore parenthesized 19 0 (ts ++ [.mark .parenClose]) e n := by
  apply ReadsBefore.of_succ (Nat.succ_pos _)
  intro steps rest hsteps hrest c hc htokens
  simp only [List.length_append, List.length_cons, List.length_nil] at hsteps
  rw [List.append_assoc] at htokens
  have hnone := Cursor.peek?_ne_of_startRank .parenClose htokens hstart
    (show 2 < 3 by decide)
  rw [Parser.parenthesized, ensures_bind, ensures_eat, if_neg hnone, if_neg Bool.false_ne_true,
    ensures_bind]
  refine ih.after (by omega) (.refl hc) htokens (show 7 < 9 by decide) le_rfl
    fun c₁ hfirst htokens₁ ↦ ?_
  have hclose := Cursor.peek?_of_tokens htokens₁
  rw [ensures_bind, ensures_eat, if_pos hclose, if_pos rfl]
  exact ⟨rfl, (hfirst.concat hclose).congr rfl (Nat.zero_max n)⟩

/-- An expression and a comma in parentheses, with what follows up to the closing mark. -/
theorem complete_tuple {e : Expr} {items : List Expr} (hstart : startRank ts.head? ≤ 2)
    (ihe : ReadsBefore expr 13 7 ts e m)
    (ihi : ReadsUpTo .parenClose us items n) :
    ReadsBefore parenthesized 19 0 (ts ++ .mark .comma :: us) (.tuple (e :: items)) (max m n) := by
  apply ReadsBefore.of_succ (Nat.succ_pos _)
  intro steps rest hsteps hrest c hc htokens
  simp only [List.length_append, List.length_cons] at hsteps
  simp only [List.append_assoc, List.cons_append] at htokens
  have hnone := Cursor.peek?_ne_of_startRank .parenClose htokens hstart
    (show 2 < 3 by decide)
  rw [Parser.parenthesized, ensures_bind, ensures_eat, if_neg hnone, if_neg Bool.false_ne_true,
    ensures_bind]
  refine ihe.after (by omega) (.refl hc) htokens (show 7 < 9 by decide) (by omega)
    fun c₁ hfirst htokens₁ ↦ ?_
  have hcomma := Cursor.peek?_of_tokens htokens₁
  have hclose : c₁.peek? ≠ some (.mark .parenClose) := by
    rw [hcomma]
    decide
  rw [ensures_bind, ensures_eat, if_neg hclose, if_neg Bool.false_ne_true, ensures_bind,
    ensures_expect, if_pos hcomma, ensures_bind]
  refine (ihi steps rest (by omega)).after (hfirst.concat hcomma)
    (Cursor.tokens_advance_of htokens₁) (by omega) fun c₂ hpass _ ↦ ?_
  exact ⟨rfl, hpass.congr (by simp) (by omega)⟩

/-- What follows an opening bracket. -/
theorem complete_bracketed {e : Expr} (ih : ReadsBefore bracketed 19 0 ts e n) :
    ReadsBefore atom 1 0 (.mark .bracketOpen :: ts) e n := by
  apply ReadsBefore.of_succ (Nat.succ_pos _)
  intro steps rest hsteps hrest c hc htokens
  rw [List.length_cons] at hsteps
  have hpeek := Cursor.peek?_of_tokens htokens
  rw [Parser.atom, ensures_bind, ensures_peek?, hpeek]
  dsimp only
  rw [ensures_bind, ensures_advance]
  refine ih.after (by omega) ((Cursor.Passes.refl hc).concat hpeek)
    (Cursor.tokens_advance_of htokens) hrest le_rfl fun c₁ hpass _ ↦ ?_
  exact ⟨rfl, hpass.congr rfl (Nat.zero_max n)⟩

theorem complete_empty : ReadsBefore bracketed 19 0 [.mark .bracketClose] (.list []) 0 := by
  apply ReadsBefore.of_succ (Nat.succ_pos _)
  intro steps rest hsteps hrest c hc htokens
  have hclose := Cursor.peek?_of_tokens htokens
  rw [Parser.bracketed, ensures_bind, ensures_eat, if_pos hclose, if_pos rfl]
  exact ⟨rfl, (Cursor.Passes.refl hc).concat hclose⟩

/-- The first expression in brackets, before a token that starts no clause. -/
theorem complete_bracketed_first {first : Expr} {c : Cursor} {rest : List Token}
    {steps levels : Nat} (hsteps : 20 * ts.length + 18 ≤ steps) (hc : c.depth ≤ maxNesting)
    (hstart : startRank ts.head? ≤ 2) (ihf : ReadsBefore expr 13 7 ts first m)
    (htokens : c.tokens = ts ++ rest) (hrest : 8 < joinRank rest.head?) (hm : m ≤ levels)
    {ok : Expr → Cursor → Prop}
    (hok : ∀ c₁, c.Passes c₁ ts m → c₁.tokens = rest →
      (do
        if ← eat .comma then
          return .list (first :: (← sequence steps .bracketClose))
        else
          expect .bracketClose
          return .list [first] : Parser Expr).Ensures c₁ ok (IsTooDeep (c.depth + levels))) :
    (bracketed (steps + 1)).Ensures c ok (IsTooDeep (c.depth + levels)) := by
  have hnone := Cursor.peek?_ne_of_startRank .bracketClose htokens hstart (show 2 < 3 by decide)
  rw [Parser.bracketed, ensures_bind, ensures_eat, if_neg hnone, if_neg Bool.false_ne_true,
    ensures_bind]
  refine ihf.after (by omega) (.refl hc) htokens (by omega) hm fun c₁ hfirst htokens₁ ↦ ?_
  rw [ensures_bind]
  refine complete_clausesNil.after (by simp; omega) hfirst htokens₁ hrest (Nat.zero_le _)
    fun c₂ hpass htokens₂ ↦ ?_
  exact hok c₂ (hpass.congr (by simp) (by omega)) htokens₂

theorem complete_listItem {e : Expr} (hstart : startRank ts.head? ≤ 2)
    (ih : ReadsBefore expr 13 7 ts e n) :
    ReadsBefore bracketed 19 0 (ts ++ [.mark .bracketClose]) (.list [e]) n := by
  apply ReadsBefore.of_succ (Nat.succ_pos _)
  intro steps rest hsteps hrest c hc htokens
  simp only [List.length_append, List.length_cons, List.length_nil] at hsteps
  rw [List.append_assoc] at htokens
  refine complete_bracketed_first (by omega) hc hstart ih htokens (show 8 < 9 by decide) le_rfl
    fun c₁ hfirst htokens₁ ↦ ?_
  have hclose := Cursor.peek?_of_tokens htokens₁
  have hcomma : c₁.peek? ≠ some (.mark .comma) := by
    rw [hclose]
    decide
  rw [ensures_bind, ensures_eat, if_neg hcomma, if_neg Bool.false_ne_true, ensures_bind,
    ensures_expect, if_pos hclose]
  exact ⟨rfl, hfirst.concat hclose⟩

theorem complete_listItems {e : Expr} {items : List Expr} (hstart : startRank ts.head? ≤ 2)
    (ihe : ReadsBefore expr 13 7 ts e m) (ihi : ReadsUpTo .bracketClose us items n) :
    ReadsBefore bracketed 19 0 (ts ++ .mark .comma :: us) (.list (e :: items)) (max m n) := by
  apply ReadsBefore.of_succ (Nat.succ_pos _)
  intro steps rest hsteps hrest c hc htokens
  simp only [List.length_append, List.length_cons] at hsteps
  simp only [List.append_assoc, List.cons_append] at htokens
  refine complete_bracketed_first (by omega) hc hstart ihe htokens (show 8 < 9 by decide)
    (Nat.le_max_left m n) fun c₁ hfirst htokens₁ ↦ ?_
  have hcomma := Cursor.peek?_of_tokens htokens₁
  rw [ensures_bind, ensures_eat, if_pos hcomma, if_pos rfl, ensures_bind]
  refine (ihi steps rest (by omega)).after (hfirst.concat hcomma)
    (Cursor.tokens_advance_of htokens₁) (by omega) fun c₂ hpass _ ↦ ?_
  exact ⟨rfl, hpass.congr (by simp) rfl⟩

theorem complete_comprehension {element : Expr} {first : Clause} {more : List Clause}
    (hstart : startRank ts.head? ≤ 2) (ihe : ReadsBefore expr 13 7 ts element m)
    (hclauses : Phrase .clauses us (first :: more) n)
    (ihc : ReadsBefore clauses 2 8 us (first :: more) n) :
    ReadsBefore bracketed 19 0 (ts ++ (us ++ [.mark .bracketClose]))
      (.comprehension element (first :: more)) (max m n) := by
  apply ReadsBefore.of_succ (Nat.succ_pos _)
  intro steps rest hsteps hrest c hc htokens
  simp only [List.length_append, List.length_cons, List.length_nil] at hsteps
  simp only [List.append_assoc, List.singleton_append] at htokens
  have hnone := Cursor.peek?_ne_of_startRank .bracketClose htokens hstart (show 2 < 3 by decide)
  rw [Parser.bracketed, ensures_bind, ensures_eat, if_neg hnone, if_neg Bool.false_ne_true,
    ensures_bind]
  refine ihe.after (by omega) (.refl hc) htokens
    (joinRank_append_clauses hclauses (by omega) (show 7 < 9 by decide)) (by omega)
    fun c₁ helement htokens₁ ↦ ?_
  rw [ensures_bind]
  refine ihc.after (by omega) helement htokens₁ (show 8 < 9 by decide) (by omega)
    fun c₂ hpass htokens₂ ↦ ?_
  have hclose := Cursor.peek?_of_tokens htokens₂
  change ((do
    expect .bracketClose
    return .comprehension element (first :: more)) : Parser Expr).Ensures _ _ _
  rw [ensures_bind, ensures_expect, if_pos hclose]
  exact ⟨rfl, (hpass.concat hclose).congr (by simp) (by omega)⟩

end Rules

/-! ### All phrases -/

/-- Every phrase is read by the parser of its symbol. -/
theorem complete {s : Symbol} {ts : List Token} {t : s.Tree} {n : Nat} (h : Phrase s ts t n) :
    Complete s ts t n := by
  induction h with
  | plain _ ih => exact complete_plain ih
  | conditional _ _ _ ihv ihc iho => exact complete_conditional ihv ihc iho
  | row _ hrest ihf ihr => exact complete_row ihf hrest ihr
  | restNil => exact complete_restNil
  | restCons hjoin _ hrest iho ihr => exact complete_restCons hjoin iho hrest ihr
  | conjunction _ ih => exact complete_call (fun _ ↦ rfl) le_rfl le_rfl ih
  | inversion _ ih => exact complete_call (fun _ ↦ rfl) le_rfl le_rfl ih
  | term _ ih => exact complete_call (fun _ ↦ rfl) le_rfl le_rfl ih
  | factor _ ih => exact complete_call (fun _ ↦ rfl) le_rfl le_rfl ih
  | not _ ih => exact complete_not ih
  | comparison h ih => exact complete_comparison h.startRank_le ih
  | sum _ ih =>
    have hcompare := complete_compare rfl ih .linksNil complete_linksNil
    rwa [List.append_nil, Nat.max_zero] at hcompare
  | compare _ hlinks ihf ihl => exact complete_compare rfl ihf hlinks ihl
  | linksNil => exact complete_linksNil
  | linksCons hop _ hmore iho ihm => exact complete_linksCons hop iho hmore ihm
  | sign hsigns _ ih => exact complete_sign hsigns ih
  | atom h ih => exact complete_atom (Nat.le_zero.1 h.startRank_le) ih
  | power h _ ihb ihe => exact complete_power (Nat.le_zero.1 h.startRank_le) ihb ihe
  | number => exact complete_number
  | name hword => exact complete_name hword
  | range h harity ih => exact complete_range h.exprs_ne_nil harity ih
  | unit => exact complete_parenthesized complete_unit
  | group h ih => exact complete_parenthesized (complete_group h.startRank_le ih)
  | single h ih =>
    have htuple := complete_tuple h.startRank_le ih complete_closed
    rw [Nat.max_zero] at htuple
    exact complete_parenthesized htuple
  | tuple h _ ihe ihi =>
    exact complete_parenthesized (complete_tuple h.startRank_le ihe (ihi.upTo _ (.inl rfl)))
  | empty => exact complete_bracketed complete_empty
  | list _ ih => exact complete_bracketed ih.list
  | comprehension h hclauses ihe ihc =>
    exact complete_bracketed (complete_comprehension h.startRank_le ihe hclauses ihc)
  | last h ih =>
    exact ⟨fun close hclose ↦ complete_item hclose h.startRank_le ih,
      complete_listItem h.startRank_le ih⟩
  | trailing h ih =>
    constructor
    · intro close hclose
      have hitems := complete_items hclose h.startRank_le ih complete_closed
      rwa [Nat.max_zero, List.append_cons] at hitems
    · have hitems := complete_listItems h.startRank_le ih complete_closed
      rwa [Nat.max_zero, List.append_cons] at hitems
  | more h _ ihe ihi =>
    constructor
    · intro close hclose
      rw [List.append_assoc, List.cons_append]
      exact complete_items hclose h.startRank_le ihe (ihi.upTo close hclose)
    · rw [List.append_assoc, List.cons_append]
      exact complete_listItems h.startRank_le ihe (ihi.upTo _ (.inr rfl))
  | clausesNil => exact complete_clausesNil
  | clausesCons _ hmore ihf ihm => exact complete_clausesCons ihf hmore ihm
  | clause hfree _ hfilters ihi ihf => exact ⟨_, rfl, complete_clause hfree ihi hfilters ihf⟩
  | filtersNil => exact complete_filtersNil
  | filtersCons _ hmore ihc ihm => exact complete_filtersCons ihc hmore ihm

end Parser

end Waypoints
