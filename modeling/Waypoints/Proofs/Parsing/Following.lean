import Waypoints.Proofs.Parsing.Progress
/-!
# Readers by position follow the parsers

The table of a text has its tokens and the end after them, and a position of it is a place of the
text (`State.cursor`). A reader follows a parser that has some steps if, with any bound of as many
calls or more, it has the same outcome at every place, with the tokens in between passed over
(`Follows`); where the parser runs out of steps, nothing is asked of the reader. This goes through
the steps and sequences of steps, so by induction on the allowance the readers of the grammar follow
its parsers (`followsAt`).
-/

set_option autoImplicit false
set_option relaxedAutoImplicit false

namespace Waypoints

namespace Indexed

open StateT (Ensures ensures_bind ensures_get)

variable {α β : Type}

/-! ### Runs -/

theorem bind_run (q : Indexed α) (f : α → Indexed β) (entries : Array Entry) (s : State) :
    (q >>= f) entries s = match q entries s with
      | none => none
      | some (.ok a, s') => f a entries s'
      | some (.error halt, s') => some (.error halt, s') := by
  change Option.bind (q entries s) _ = _
  rcases q entries s with _ | ⟨_ | a, s'⟩ <;> rfl

section Bind

variable {q : Indexed α} {f : α → Indexed β} {entries : Array Entry} {s s' : State}

theorem bind_of_ok {a : α} (h : q entries s = some (.ok a, s')) :
    (q >>= f) entries s = f a entries s' := by
  rw [bind_run, h]

theorem bind_of_error {halt : Halt} (h : q entries s = some (.error halt, s')) :
    (q >>= f) entries s = some (.error halt, s') := by
  rw [bind_run, h]

end Bind

/-! ### Tables of texts -/

/-- The entry of a token. -/
def tokenEntry (l : Lexeme) : Entry :=
  ⟨some l.token, l.offset⟩

/-- The tokens of a text with the end after them. -/
def table (ls : List Lexeme) (stop : Nat) : Array Entry :=
  (ls.map tokenEntry).toArray.push ⟨none, stop⟩

variable {ls : List Lexeme} {stop : Nat} {s s₁ s₂ : State}

/-- The place at the position of a state. -/
def State.cursor (ls : List Lexeme) (stop : Nat) (s : State) : Cursor :=
  ⟨ls.drop s.pos, stop, s.depth⟩

theorem size_table (ls : List Lexeme) (stop : Nat) : (table ls stop).size = ls.length + 1 := by
  simp [table]

theorem getElem?_table (h : s.pos ≤ ls.length) :
    (table ls stop)[s.pos]? = some ⟨(s.cursor ls stop).peek?, (s.cursor ls stop).offset⟩ := by
  rw [table, Array.getElem?_push, List.size_toArray, List.length_map, List.getElem?_toArray,
    List.getElem?_map, State.cursor, Cursor.peek?, Cursor.offset]
  rcases h.lt_or_eq with hlt | heq
  · rw [if_neg hlt.ne, List.getElem?_eq_getElem hlt, List.drop_eq_getElem_cons hlt]
    rfl
  · rw [if_pos heq, heq, List.drop_length]
    rfl

/-- The tokens from one position to another. -/
def between (ls : List Lexeme) (m n : Nat) : List Token :=
  ((ls.drop m).take (n - m)).map (·.token)

theorem between_append {k m n : Nat} (hkm : k ≤ m) (hmn : m ≤ n) :
    between ls k m ++ between ls m n = between ls k n := by
  obtain ⟨i, rfl⟩ := Nat.exists_eq_add_of_le hkm
  obtain ⟨j, rfl⟩ := Nat.exists_eq_add_of_le hmn
  rw [between, between, between, ← List.map_append, Nat.add_sub_cancel_left,
    Nat.add_sub_cancel_left, Nat.add_assoc, Nat.add_sub_cancel_left, List.take_add, List.drop_drop]

theorem length_between (m : Nat) {n : Nat} (hn : n ≤ ls.length) :
    (between ls m n).length = n - m := by
  rw [between, List.length_map, List.length_take, List.length_drop]
  omega

/-- A state is reached from another one by passing over the tokens between them. -/
structure Reaches (ls : List Lexeme) (s s' : State) : Prop where
  pos_le : s.pos ≤ s'.pos
  pos_le_length : s'.pos ≤ ls.length
  passed_eq : s'.passed = s.passed ++ (between ls s.pos s'.pos).map some

theorem Reaches.refl (h : s.pos ≤ ls.length) : Reaches ls s s :=
  ⟨le_rfl, h, by simp [between]⟩

theorem Reaches.trans (h : Reaches ls s s₁) (h' : Reaches ls s₁ s₂) : Reaches ls s s₂ where
  pos_le := h.pos_le.trans h'.pos_le
  pos_le_length := h'.pos_le_length
  passed_eq := by
    rw [h'.passed_eq, h.passed_eq, List.append_assoc, ← List.map_append,
      between_append h.pos_le h'.pos_le]

/-- A state at which a reader has stopped: it has passed over the tokens up to there and perhaps,
if it is at the end, over the end. -/
structure Stops (ls : List Lexeme) (s s' : State) : Prop where
  pos_le : s.pos ≤ s'.pos
  pos_le_length : s'.pos ≤ ls.length
  passed_eq : ∃ last, (last = [] ∨ s'.pos = ls.length ∧ last = [none]) ∧
    s'.passed = s.passed ++ ((between ls s.pos s'.pos).map some ++ last)

theorem Reaches.stops (h : Reaches ls s s₁) : Stops ls s s₁ where
  pos_le := h.pos_le
  pos_le_length := h.pos_le_length
  passed_eq := ⟨[], .inl rfl, by rw [h.passed_eq, List.append_nil]⟩

theorem Reaches.trans_stops (h : Reaches ls s s₁) (h' : Stops ls s₁ s₂) : Stops ls s s₂ where
  pos_le := h.pos_le.trans h'.pos_le
  pos_le_length := h'.pos_le_length
  passed_eq := by
    obtain ⟨last, hlast, hpassed⟩ := h'.passed_eq
    refine ⟨last, hlast, ?_⟩
    rw [hpassed, h.passed_eq, List.append_assoc, ← List.append_assoc (List.map _ _),
      ← List.map_append, between_append h.pos_le h'.pos_le]

/-! ### Readers that follow parsers -/

/-- Each outcome from the `n`-th on, of a reader from a state, is the result of a parser at the same
place. -/
def SameResult (ls : List Lexeme) (stop n : Nat) (s : State)
    (outcome : Nat → Option (Except Halt α × State)) (a : α) (c : Cursor) : Prop :=
  ∃ s', Reaches ls s s' ∧ c = s'.cursor ls stop ∧ ∀ m, n ≤ m → outcome m = some (.ok a, s')

/-- Each outcome from the `n`-th on, of a reader from a state, is the error of a parser, or the
parser has run out of steps. -/
def SameError (ls : List Lexeme) (n : Nat) (s : State)
    (outcome : Nat → Option (Except Halt α × State)) (e : ParseError) : Prop :=
  e.fault = .stalled ∨
    ∃ s', Stops ls s s' ∧ ∀ m, n ≤ m → outcome m = some (.error (.refused e), s')

/-- From every position of a text, the reader does what the parser does, unless the parser runs out
of steps: it reads the same and stops at the same place, having passed over the tokens in between,
or it refuses the text with the same error. It does so with any bound of `n` calls or more. -/
def Follows (ls : List Lexeme) (stop n : Nat) (p : Parser α) (q : Nat → Indexed α) : Prop :=
  ∀ s : State, s.pos ≤ ls.length → p.Ensures (s.cursor ls stop)
    (SameResult ls stop n s (q · (table ls stop) s)) (SameError ls n s (q · (table ls stop) s))

variable {n : Nat}

section Follows

variable {p : Parser α} {q : Nat → Indexed α}

/-- A reader that goes on as one that follows a parser, from a state that is reached. -/
theorem Follows.after {outcome : Nat → Option (Except Halt α × State)}
    (h : Follows ls stop n p q) (hreach : Reaches ls s s₁)
    (hrun : ∀ m, n ≤ m → outcome m = q m (table ls stop) s₁) : p.Ensures (s₁.cursor ls stop)
      (SameResult ls stop n s outcome) (SameError ls n s outcome) := by
  refine (h s₁ hreach.pos_le_length).mono ?_ ?_
  · rintro a c ⟨s', hreach', hc, hq⟩
    exact ⟨s', hreach.trans hreach', hc, fun m hm ↦ (hrun m hm).trans (hq m hm)⟩
  · rintro e (hstalled | ⟨s', hstops, hq⟩)
    · exact .inl hstalled
    · exact .inr ⟨s', hreach.trans_stops hstops, fun m hm ↦ (hrun m hm).trans (hq m hm)⟩

/-- What holds with one call more, from some bound on, holds from the next bound on. -/
theorem forall_of_forall_succ {P : Nat → Prop} (h : ∀ m, n ≤ m → P (m + 1)) :
    ∀ m, n + 1 ≤ m → P m
  | m + 1, hm => h m (Nat.le_of_succ_le_succ hm)

/-- A reader that takes a call more. -/
theorem Follows.call {q' : Nat → Indexed α} (hq : ∀ m, q (m + 1) = q' m)
    (h : Follows ls stop n p q') : Follows ls stop (n + 1) p q := by
  intro s hs
  refine (h s hs).mono ?_ ?_
  · rintro a c ⟨s', hreach, hc, hrun⟩
    refine ⟨s', hreach, hc, forall_of_forall_succ fun m hm ↦ ?_⟩
    dsimp only
    rw [hq]
    exact hrun m hm
  · rintro e (hstalled | ⟨s', hstops, hrun⟩)
    · exact .inl hstalled
    · refine .inr ⟨s', hstops, forall_of_forall_succ fun m hm ↦ ?_⟩
      dsimp only
      rw [hq]
      exact hrun m hm

/-- The parts of a sequence are followed one after the other. -/
theorem Follows.bind {f : α → Parser β} {g : Nat → α → Indexed β} (h : Follows ls stop n p q)
    (hfg : ∀ a, Follows ls stop n (f a) (g · a)) :
    Follows ls stop n (p >>= f) fun m ↦ q m >>= g m := by
  intro s hs
  rw [ensures_bind]
  refine (h s hs).mono ?_ ?_
  · rintro a c ⟨s₁, hreach, rfl, hq⟩
    exact (hfg a).after hreach fun m hm ↦ bind_of_ok (hq m hm)
  · rintro e (hstalled | ⟨s₁, hstops, hq⟩)
    · exact .inl hstalled
    · exact .inr ⟨s₁, hstops, fun m hm ↦ bind_of_error (hq m hm)⟩

theorem follows_pure (a : α) : Follows ls stop n (pure a) fun _ ↦ pure a :=
  fun s hs ↦ ⟨s, .refl hs, rfl, fun _ _ ↦ rfl⟩

theorem Follows.map (h : Follows ls stop n p q) (f : α → β) :
    Follows ls stop n (do return f (← p)) fun m ↦ do return f (← q m) :=
  h.bind fun _ ↦ follows_pure _

theorem follows_ite {b : Prop} [Decidable b] {p' : Parser α} {q' : Nat → Indexed α}
    (h : Follows ls stop n p q) (h' : Follows ls stop n p' q') :
    Follows ls stop n (if b then p else p') fun m ↦ if b then q m else q' m := by
  split
  · exact h
  · exact h'

/-- A parser without steps is followed by every reader. -/
theorem follows_stalled : Follows ls stop n (Parser.refuse .stalled) q :=
  fun _ _ ↦ .inl rfl

end Follows

/-- The only look at a table. -/
theorem entry_apply (entries : Array Entry) (s : State) : entry entries s =
    match entries[s.pos]? with
    | some found => some (.ok found, s)
    | none => some (.error (.outOfBounds s.pos), s) := by
  have hget : (get : Indexed State) entries s = some (.ok s, s) := rfl
  have hread : (read : Indexed (Array Entry)) entries s = some (.ok entries, s) := rfl
  rw [entry, bind_of_ok hget, bind_of_ok hread]
  cases entries[s.pos]? <;> rfl

theorem entry_run (hs : s.pos ≤ ls.length) : entry (table ls stop) s =
    some (.ok ⟨(s.cursor ls stop).peek?, (s.cursor ls stop).offset⟩, s) := by
  rw [entry_apply, getElem?_table hs]

theorem peek?_run (hs : s.pos ≤ ls.length) :
    peek? (table ls stop) s = some (.ok (s.cursor ls stop).peek?, s) := by
  rw [peek?, bind_of_ok (entry_run hs)]
  rfl

theorem peek?_bind_run (hs : s.pos ≤ ls.length) (f : Option Token → Indexed α) :
    (peek? >>= f) (table ls stop) s = f (s.cursor ls stop).peek? (table ls stop) s :=
  bind_of_ok (peek?_run hs)

theorem follows_peek? : Follows ls stop n Parser.peek? fun _ ↦ peek? :=
  fun s hs ↦ ⟨s, .refl hs, rfl, fun _ _ ↦ peek?_run hs⟩

theorem refuse_run (hs : s.pos ≤ ls.length) (fault : ParseFault) :
    (refuse fault : Indexed α) (table ls stop) s =
      some (.error (.refused ⟨(s.cursor ls stop).offset, fault⟩), s) := by
  rw [refuse, bind_of_ok (entry_run hs)]
  rfl

theorem follows_refuse (fault : ParseFault) :
    Follows ls stop n (Parser.refuse fault : Parser α) fun _ ↦ refuse fault :=
  fun s hs ↦ .inr ⟨s, (Reaches.refl hs).stops, fun _ _ ↦ refuse_run hs fault⟩

/-- The state after what is at its position has been passed over. -/
def State.next (s : State) : Option Token → State
  | some t => { s with pos := s.pos + 1, passed := s.passed ++ [some t] }
  | none => { s with passed := s.passed ++ [none] }

/-- A token is met before the end, and it is what is between its position and the next one. -/
theorem pos_lt_of_peek? {t : Token} (h : (s.cursor ls stop).peek? = some t) :
    s.pos < ls.length ∧ between ls s.pos (s.pos + 1) = [t] := by
  have hlt : s.pos < ls.length := by
    by_contra hle
    rw [Cursor.peek?, State.cursor, List.drop_eq_nil_of_le (Nat.le_of_not_lt hle)] at h
    cases h
  rw [Cursor.peek?, State.cursor, List.drop_eq_getElem_cons hlt] at h
  obtain rfl := Option.some.inj h
  rw [between, Nat.add_sub_cancel_left, List.drop_eq_getElem_cons hlt]
  exact ⟨hlt, rfl⟩

theorem pos_eq_of_peek? (hs : s.pos ≤ ls.length) (h : (s.cursor ls stop).peek? = none) :
    s.pos = ls.length := by
  refine hs.antisymm (Nat.le_of_not_lt fun hlt ↦ ?_)
  rw [Cursor.peek?, State.cursor, List.drop_eq_getElem_cons hlt] at h
  cases h

theorem Reaches.next {t : Token} (h : (s.cursor ls stop).peek? = some t) :
    Reaches ls s (s.next (some t)) where
  pos_le := Nat.le_succ _
  pos_le_length := (pos_lt_of_peek? h).1
  passed_eq := by
    rw [State.next, (pos_lt_of_peek? h).2]
    rfl

theorem stops_next (hs : s.pos ≤ ls.length) : Stops ls s (s.next (s.cursor ls stop).peek?) := by
  cases hpeek : (s.cursor ls stop).peek? with
  | some t => exact (Reaches.next hpeek).stops
  | none =>
    refine ⟨le_rfl, hs, [none], .inr ⟨pos_eq_of_peek? hs hpeek, rfl⟩, ?_⟩
    rw [State.next, between, Nat.sub_self]
    rfl

theorem cursor_next (hs : s.pos ≤ ls.length) :
    (s.next (s.cursor ls stop).peek?).cursor ls stop = (s.cursor ls stop).advance := by
  cases hpeek : (s.cursor ls stop).peek? with
  | some t =>
    rw [State.cursor, State.cursor, Cursor.advance, List.tail_drop]
    rfl
  | none =>
    rw [State.cursor, State.cursor, Cursor.advance, State.next, pos_eq_of_peek? hs hpeek,
      List.drop_length]
    rfl

theorem advance_run (hs : s.pos ≤ ls.length) : advance (table ls stop) s =
    some (.ok (s.cursor ls stop).peek?, s.next (s.cursor ls stop).peek?) := by
  rw [advance, peek?_bind_run hs]
  change some (Except.ok (s.cursor ls stop).peek?,
    State.mk (if s.pos + 1 < (table ls stop).size then _ else _) _ _) = _
  rw [size_table]
  cases hpeek : (s.cursor ls stop).peek? with
  | some t =>
    rw [if_pos (Nat.succ_lt_succ (pos_lt_of_peek? hpeek).1)]
    rfl
  | none =>
    rw [if_neg (by rw [pos_eq_of_peek? hs hpeek]; exact lt_irrefl _)]
    rfl

/-- A token is passed over. -/
theorem advance_token {t : Token} (h : (s.cursor ls stop).peek? = some t) :
    advance (table ls stop) s = some (.ok (some t), s.next (some t)) ∧
      (s.next (some t)).cursor ls stop = (s.cursor ls stop).advance := by
  have hs := (pos_lt_of_peek? h).1.le
  rw [← h]
  exact ⟨advance_run hs, cursor_next hs⟩

theorem follows_take? {kind : Option Token → Option β} (hend : kind none = none) :
    Follows ls stop n (Parser.take? kind) fun _ ↦ take? kind := by
  intro s hs
  dsimp only
  rw [Parser.take?, ensures_bind, Parser.ensures_peek?, take?, peek?_bind_run hs]
  cases hkind : kind (s.cursor ls stop).peek? with
  | none => exact ⟨s, .refl hs, rfl, fun _ _ ↦ rfl⟩
  | some b =>
    obtain ⟨t, ht⟩ := Parser.exists_peek?_of_kind hend hkind
    obtain ⟨hrun, hcursor⟩ := advance_token ht
    exact ⟨s.next (some t), .next ht, hcursor.symm, fun _ _ ↦ bind_of_ok hrun⟩

theorem follows_eat (m : Mark) : Follows ls stop n (Parser.eat m) fun _ ↦ eat (some m) := by
  intro s hs
  dsimp only
  rw [Parser.ensures_eat, eat, peek?_bind_run hs, Option.map_some]
  split
  · next hpeek =>
    obtain ⟨hrun, hcursor⟩ := advance_token hpeek
    exact ⟨s.next (some _), .next hpeek, hcursor.symm, fun _ _ ↦ bind_of_ok hrun⟩
  · exact ⟨s, .refl hs, rfl, fun _ _ ↦ rfl⟩

theorem follows_expect (m : Mark) :
    Follows ls stop n (Parser.expect m) fun _ ↦ expect (some m) :=
  (follows_eat m).bind fun _ ↦
    follows_ite (follows_pure ()) (follows_peek?.bind fun _ ↦ follows_refuse _)

theorem follows_setDepth (f : Nat → Nat) : Follows ls stop n
    (modify fun c ↦ { c with depth := f c.depth } : Parser Unit) fun _ ↦ setDepth f :=
  fun s hs ↦
    ⟨{ s with depth := f s.depth }, ⟨le_rfl, hs, (Reaches.refl hs).passed_eq⟩, rfl, fun _ _ ↦ rfl⟩

theorem follows_get_bind {f : Cursor → Parser α} {g : Nat → Nat → Indexed α}
    (h : ∀ c, Follows ls stop n (f c) (g · c.depth)) :
    Follows ls stop n (get >>= f) fun m ↦ depth >>= g m :=
  fun s hs ↦ h (s.cursor ls stop) s hs

theorem follows_descend : Follows ls stop n Parser.descend fun _ ↦ descend :=
  (follows_setDepth (· + 1)).bind fun _ ↦ follows_get_bind fun _ ↦
    follows_ite (follows_refuse _) (follows_pure _)

section Levels

variable {p : Parser α} {q : Nat → Indexed α}

theorem Follows.closing (h : Follows ls stop n p q) :
    Follows ls stop n (Parser.closing p) fun m ↦ do
      let levels ← depth
      let a ← q m
      setDepth fun _ ↦ levels
      return a :=
  follows_get_bind fun c ↦ h.bind fun a ↦
    (follows_setDepth fun _ ↦ c.depth).bind fun _ ↦ follows_pure a

theorem Follows.nested_bind {f : α → Parser β} {g : Nat → α → Indexed β}
    (h : Follows ls stop n p q) (hfg : ∀ a, Follows ls stop n (f a) (g · a)) :
    Follows ls stop n (Parser.nested p >>= f) (fun m ↦ do
      descend
      let a ← q m
      ascend
      g m a) := by
  rw [Parser.nested, bind_assoc]
  refine follows_descend.bind fun _ ↦ ?_
  rw [bind_assoc]
  refine h.bind fun a ↦ ?_
  rw [bind_assoc]
  refine (follows_setDepth (· - 1)).bind fun _ ↦ ?_
  rw [pure_bind]
  exact hfg a

end Levels

/-! ### The productions -/

/-- The readers follow the parsers with an allowance of so many steps. -/
def FollowsAt (ls : List Lexeme) (stop n : Nat) : Prop :=
  EachReader fun _ _ p q ↦ Follows ls stop n (p n) q

theorem followsAt_zero : FollowsAt ls stop 0 where
  expr := follows_stalled
  conditional := fun _ _ ↦ .inl rfl
  row _ := follows_stalled
  rowRest _ _ := follows_stalled
  operand _ := follows_stalled
  inversion := follows_stalled
  comparison := follows_stalled
  links := follows_stalled
  factor := follows_stalled
  power := fun _ _ ↦ .inl rfl
  atom := follows_stalled
  parenthesized := follows_stalled
  bracketed := follows_stalled
  sequence _ := follows_stalled
  clauses := follows_stalled
  clause := follows_stalled
  filters := follows_stalled

theorem follows_conditional
    (hrow : Follows ls stop n (Parser.row n .disjunction) (row · .disjunction))
    (hexpr : Follows ls stop n (Parser.expr n) expr) :
    Follows ls stop n (Parser.conditional n) conditional := by
  refine hrow.bind fun value ↦ (follows_eat _).bind fun _ ↦ follows_ite ?_ (follows_pure _)
  exact hrow.bind fun condition ↦ (follows_expect _).bind fun _ ↦ hexpr.map _

theorem follows_expr (ih : FollowsAt ls stop n) :
    Follows ls stop (n + 1) (Parser.expr (n + 1)) expr := by
  rw [Parser.expr_succ]
  refine .call (fun _ ↦ rfl) (follows_descend.bind fun _ ↦ ih.conditional.bind fun e ↦ ?_)
  exact (follows_setDepth (· - 1)).bind fun _ ↦ follows_pure e

theorem follows_row (ih : FollowsAt ls stop n) (r : Row) :
    Follows ls stop (n + 1) (Parser.row (n + 1) r) (row · r) := by
  rw [Parser.row_succ]
  exact .call (fun _ ↦ rfl) ((ih.operand r).bind fun first ↦ (ih.rowRest r first).closing)

theorem follows_rowRest (ih : FollowsAt ls stop n) (r : Row) (lhs : Expr) :
    Follows ls stop (n + 1) (Parser.rowRest (n + 1) r lhs) (rowRest · r lhs) := by
  rw [Parser.rowRest_succ]
  refine .call (fun _ ↦ rfl) ((follows_take? rfl).bind fun join ↦ ?_)
  cases join with
  | none => exact follows_pure _
  | some join =>
    exact follows_descend.bind fun _ ↦ (ih.operand r).bind fun rhs ↦ ih.rowRest r _

theorem follows_operand (ih : FollowsAt ls stop n) (r : Row) :
    Follows ls stop (n + 1) (Parser.operand (n + 1) r) (operand · r) := by
  cases r with
  | disjunction => exact .call (fun _ ↦ rfl) (ih.row .conjunction)
  | conjunction => exact .call (fun _ ↦ rfl) ih.inversion
  | sum => exact .call (fun _ ↦ rfl) (ih.row .term)
  | term => exact .call (fun _ ↦ rfl) ih.factor

theorem follows_inversion (ih : FollowsAt ls stop n) :
    Follows ls stop (n + 1) (Parser.inversion (n + 1)) inversion := by
  rw [Parser.inversion]
  refine .call (fun _ ↦ rfl) ((follows_eat _).bind fun _ ↦ follows_ite ?_ ih.comparison)
  exact ih.inversion.nested_bind fun operand ↦ follows_pure _

theorem follows_comparison (ih : FollowsAt ls stop n) :
    Follows ls stop (n + 1) (Parser.comparison (n + 1)) comparison := by
  rw [Parser.comparison]
  refine .call (fun _ ↦ rfl) ((ih.row .sum).bind fun first ↦ ih.links.bind fun links ↦ ?_)
  cases links <;> exact follows_pure _

theorem follows_links (ih : FollowsAt ls stop n) :
    Follows ls stop (n + 1) (Parser.links (n + 1)) links := by
  rw [Parser.links_succ]
  refine .call (fun _ ↦ rfl) ((follows_take? rfl).bind fun op ↦ ?_)
  cases op with
  | none => exact follows_pure _
  | some op => exact (ih.row .sum).bind fun operand ↦ ih.links.map _

theorem follows_factor (ih : FollowsAt ls stop n) :
    Follows ls stop (n + 1) (Parser.factor (n + 1)) factor := by
  rw [Parser.factor_succ_eq]
  refine .call (fun _ ↦ rfl) ((follows_take? rfl).bind fun sign ↦ ?_)
  cases sign with
  | none => exact ih.power
  | some op => exact ih.factor.nested_bind fun operand ↦ follows_pure _

theorem follows_power (hatom : Follows ls stop n (Parser.atom n) atom)
    (hfactor : Follows ls stop n (Parser.factor n) factor) :
    Follows ls stop n (Parser.power n) power := by
  refine hatom.bind fun base ↦ (follows_eat _).bind fun _ ↦ follows_ite ?_ (follows_pure _)
  exact hfactor.nested_bind fun exponent ↦ follows_pure _

theorem follows_parenthesized (ih : FollowsAt ls stop n) :
    Follows ls stop (n + 1) (Parser.parenthesized (n + 1)) parenthesized := by
  rw [Parser.parenthesized]
  refine .call (fun _ ↦ rfl) ((follows_eat _).bind fun _ ↦ follows_ite (follows_pure _) ?_)
  refine ih.expr.bind fun first ↦ (follows_eat _).bind fun _ ↦ follows_ite (follows_pure _) ?_
  exact (follows_expect _).bind fun _ ↦ (ih.sequence _).map _

theorem follows_sequence (ih : FollowsAt ls stop n) (close : Mark) :
    Follows ls stop (n + 1) (Parser.sequence (n + 1) close) (sequence · close) := by
  rw [Parser.sequence]
  refine .call (fun _ ↦ rfl) ((follows_eat _).bind fun _ ↦ follows_ite (follows_pure _) ?_)
  refine ih.expr.bind fun item ↦ (follows_eat _).bind fun _ ↦ follows_ite ?_ ?_
  · exact (ih.sequence _).map _
  · exact (follows_expect _).bind fun _ ↦ follows_pure _

/-- Whether clauses follow shows in the next token. -/
theorem follows_clauses_or {f : List Clause → Parser α} {g : Nat → List Clause → Indexed α}
    {p : Parser α} {q : Nat → Indexed α}
    (hclauses : Follows ls stop n (Parser.clauses n) clauses)
    (hfg : ∀ cs, Follows ls stop n (f cs) (g · cs)) (h : Follows ls stop n p q) :
    Follows ls stop n
      (do
        match ← Parser.clauses n with
        | clause :: more => f (clause :: more)
        | [] => p)
      (fun m ↦ do
        if (← peek?) = some (.mark .kwFor) then
          g m (← clauses m)
        else
          q m) := by
  intro s hs
  dsimp only
  simp only [peek?_bind_run hs]
  cases n with
  | zero => exact .inl rfl
  | succ n =>
    -- The parser reads the clauses first and looks at what it has; the reader looks at the token.
    by_cases hfor : (s.cursor ls stop).peek? = some (.mark .kwFor)
    · simp only [if_pos hfor]
      have hsome := hclauses.bind hfg s hs
      rw [Parser.clauses, bind_assoc, Ensures, Parser.eat_bind_apply, if_pos hfor] at hsome ⊢
      simp only [if_true, bind_assoc, pure_bind] at hsome ⊢
      exact hsome
    · simp only [if_neg hfor]
      rw [Parser.clauses, bind_assoc, Ensures, Parser.eat_bind_apply, if_neg hfor]
      exact h s hs

theorem follows_bracketed (ih : FollowsAt ls stop n) :
    Follows ls stop (n + 1) (Parser.bracketed (n + 1)) bracketed := by
  rw [Parser.bracketed]
  refine .call (fun _ ↦ rfl) ((follows_eat _).bind fun _ ↦ follows_ite (follows_pure _) ?_)
  refine ih.expr.bind fun first ↦ ?_
  have hclauses (cs : List Clause) : Follows ls stop n
      (do Parser.expect .bracketClose; return Expr.comprehension first cs)
      (fun _ ↦ do expect (some .bracketClose); return .comprehension first cs) :=
    (follows_expect _).bind fun _ ↦ follows_pure _
  refine follows_clauses_or ih.clauses hclauses ((follows_eat _).bind fun _ ↦ follows_ite ?_ ?_)
  · exact (ih.sequence _).map _
  · exact (follows_expect _).bind fun _ ↦ follows_pure _

theorem follows_clauses (ih : FollowsAt ls stop n) :
    Follows ls stop (n + 1) (Parser.clauses (n + 1)) clauses := by
  rw [Parser.clauses]
  refine .call (fun _ ↦ rfl) ((follows_eat _).bind fun _ ↦ follows_ite ?_ (follows_pure _))
  exact ih.clause.bind fun first ↦ ih.clauses.map _

theorem follows_clause (ih : FollowsAt ls stop n) :
    Follows ls stop (n + 1) (Parser.clause (n + 1)) clause := by
  refine .call (fun _ ↦ rfl) fun s hs ↦ ?_
  have hrefuse (found : Option Token) :
      Follows ls stop n (Parser.refuse (.expectedVariable found) : Parser Clause)
        fun _ ↦ refuse (.expectedVariable found) :=
    follows_refuse _
  rw [Parser.clause, ensures_bind, Parser.ensures_peek?, ensures_bind, Parser.ensures_advance,
    ← cursor_next hs]
  simp only [clause, bind_of_ok (advance_run hs)]
  rcases hpeek : (s.cursor ls stop).peek? with _ | value | word | mark
  · have hstops : Stops ls s (s.next none) := hpeek ▸ stops_next hs
    exact .inr ⟨_, hstops, fun _ _ ↦ refuse_run hstops.pos_le_length _⟩
  · exact (hrefuse _).after (.next hpeek) fun _ _ ↦ rfl
  · refine (follows_ite (follows_refuse _) ?_).after (.next hpeek) fun _ _ ↦ rfl
    refine (follows_expect _).bind fun _ ↦ (ih.row .disjunction).bind fun items ↦ ?_
    exact ih.filters.map _
  · exact (hrefuse _).after (.next hpeek) fun _ _ ↦ rfl

theorem follows_word (ih : FollowsAt ls stop n) (word : String) :
    Follows ls stop n
      (do
        if word = "range" then
          Parser.expect .parenOpen
          let args ← Parser.sequence n .parenClose
          if args.isEmpty || 3 < args.length then
            Parser.refuse (.rangeArity args.length)
          else
            return .range args
        else if (← Parser.peek?) = some (.mark .parenOpen) then
          Parser.refuse (.notCallable word)
        else
          return Expr.name word)
      (fun m ↦ do
        if word = "range" then
          expect (some .parenOpen)
          let args ← sequence m .parenClose
          if args.isEmpty || 3 < args.length then
            refuse (.rangeArity args.length)
          else
            return .range args
        else if (← peek?) = some (.mark .parenOpen) then
          refuse (.notCallable word)
        else
          return .name word) := by
  refine follows_ite ((follows_expect _).bind fun _ ↦ (ih.sequence _).bind fun args ↦ ?_) ?_
  · exact follows_ite (follows_refuse _) (follows_pure _)
  · exact follows_peek?.bind fun _ ↦ follows_ite (follows_refuse _) (follows_pure _)

theorem follows_atom (ih : FollowsAt ls stop n) :
    Follows ls stop (n + 1) (Parser.atom (n + 1)) atom := by
  refine .call (fun _ ↦ rfl) fun s hs ↦ ?_
  rw [Parser.atom, ensures_bind, Parser.ensures_peek?]
  -- The reader has passed over the entry already, where the parser still has to.
  simp only [atom, bind_of_ok (entry_run hs), bind_of_ok (advance_run hs)]
  rcases hpeek : (s.cursor ls stop).peek? with _ | value | word | mark
  · exact .inr ⟨s.next none, hpeek ▸ stops_next hs, fun _ _ ↦ rfl⟩
  · exact ⟨_, .next hpeek, (advance_token hpeek).2.symm, fun _ _ ↦ rfl⟩
  · dsimp only
    rw [ensures_bind, Parser.ensures_advance, ← (advance_token hpeek).2]
    exact (follows_word ih word).after (.next hpeek) fun _ _ ↦ rfl
  · have hnext := Reaches.next hpeek
    have hcursor := (advance_token hpeek).2
    cases mark with
    | parenOpen =>
      dsimp only
      rw [ensures_bind, Parser.ensures_advance, ← hcursor]
      exact ih.parenthesized.after hnext fun _ _ ↦ rfl
    | bracketOpen =>
      dsimp only
      rw [ensures_bind, Parser.ensures_advance, ← hcursor]
      exact ih.bracketed.after hnext fun _ _ ↦ rfl
    | _ => exact .inr ⟨_, hnext.stops, fun _ _ ↦ rfl⟩

theorem follows_filters (ih : FollowsAt ls stop n) :
    Follows ls stop (n + 1) (Parser.filters (n + 1)) filters := by
  rw [Parser.filters]
  refine .call (fun _ ↦ rfl) ((follows_eat _).bind fun _ ↦ follows_ite ?_ (follows_pure _))
  exact (ih.row .disjunction).bind fun condition ↦ ih.filters.map _

/-- Whatever the allowance of the parsers is, the readers follow them. -/
theorem followsAt (n : Nat) : FollowsAt ls stop n := by
  induction n with
  | zero => exact followsAt_zero
  | succ n ih =>
    have hrow := follows_row ih
    have hexpr := follows_expr ih
    have hfactor := follows_factor ih
    have hatom := follows_atom ih
    exact {
      expr := hexpr
      conditional := follows_conditional (hrow .disjunction) hexpr
      row := hrow
      rowRest := follows_rowRest ih
      operand := follows_operand ih
      inversion := follows_inversion ih
      comparison := follows_comparison ih
      links := follows_links ih
      factor := hfactor
      power := follows_power hatom hfactor
      atom := hatom
      parenthesized := follows_parenthesized ih
      bracketed := follows_bracketed ih
      sequence := follows_sequence ih
      clauses := follows_clauses ih
      clause := follows_clause ih
      filters := follows_filters ih }

end Indexed

end Waypoints
