import Mathlib.Data.Set.List
import Waypoints.Proofs.Parsing.Following
/-!
# Every reader returns

A table that ends with its only end is the table of a text. There the parsers do not run out of the
steps that `Expr.parse` allows them, so the readers by position, which follow them, return, with the
same outcome whatever the bound on their calls is from then on. They read a token at least, stay
inside of the table and do not pass over the end, until it is required after the whole expression
(`readers_return_in_bounds`).
-/

set_option autoImplicit false
set_option relaxedAutoImplicit false

namespace Waypoints

namespace Indexed

open StateT (Ensures ensures_bind)

variable {α : Type} {ls : List Lexeme} {stop : Nat} {s : State}

/-! ### Closed tables -/

/-- The end is at the last position of a table and nowhere else. -/
def Closed (entries : Array Entry) : Prop :=
  0 < entries.size ∧
    ∀ (i : Nat) (h : i < entries.size), entries[i].token? = none ↔ i + 1 = entries.size

theorem closed_table (ls : List Lexeme) (stop : Nat) : Closed (table ls stop) := by
  refine ⟨by rw [size_table]; exact Nat.succ_pos _, fun i hi ↦ ?_⟩
  rw [size_table] at hi ⊢
  simp only [table, Array.getElem_push, List.size_toArray, List.length_map]
  split
  · next hlt =>
    simp only [List.getElem_toArray, List.getElem_map, tokenEntry, reduceCtorEq, false_iff]
    omega
  · simp only [true_iff]
    omega

/-- A closed table is the table of some tokens. -/
theorem exists_table {entries : Array Entry} (h : Closed entries) :
    ∃ ls stop, entries = table ls stop := by
  obtain ⟨hsize, hends⟩ := h
  -- Only the last entry is the end, so every one of the others is that of a token.
  obtain ⟨xs, last, rfl⟩ := Array.exists_push_of_size_pos hsize
  simp only [Array.size_push] at hends
  have hlast := (hends xs.size (Nat.lt_succ_self _)).2 rfl
  rw [Array.getElem_push_eq] at hlast
  obtain ⟨ls, hls⟩ : xs.toList ∈ Set.range (List.map tokenEntry) := by
    rw [Set.range_list_map]
    intro entry hentry
    obtain ⟨i, hi, rfl⟩ := List.mem_iff_getElem.1 hentry
    rw [Array.length_toList] at hi
    have htoken := hends i (Nat.lt_succ_of_lt hi)
    rw [Array.getElem_push_lt hi, Nat.succ_inj] at htoken
    obtain ⟨t, ht⟩ := Option.ne_none_iff_exists'.1 fun hnone ↦ hi.ne (htoken.1 hnone)
    exact ⟨⟨t, xs[i].offset⟩, congrArg (Entry.mk · xs[i].offset) ht.symm⟩
  refine ⟨ls, last.offset, ?_⟩
  rw [table, hls, Array.toArray_toList, ← hlast]

theorem pos_lt_size_iff : s.pos < (table ls stop).size ↔ s.pos ≤ ls.length := by
  rw [size_table, Nat.lt_succ_iff]

/-- From every position of a table, a reader returns: it has an outcome, which is the same with any
bound of twenty calls or more for each entry ahead. It never looks outside of the table nor moves
back, and what it passes over are the entries from the position on. If it reads something, it has
passed over `least` tokens or more, each of which moves it by one position, and not over the end;
otherwise it has refused the text. -/
def Returns (entries : Array Entry) (least : Nat) (q : Nat → Indexed α) : Prop :=
  ∀ s : State, s.pos < entries.size → ∃ outcome s' passed,
    (∀ n, 20 * (entries.size - s.pos) ≤ n → q n entries s = some (outcome, s')) ∧
    s.pos ≤ s'.pos ∧ s'.pos < entries.size ∧ s'.passed = s.passed ++ passed ∧
    passed <+: (entries.toList.drop s.pos).map (·.token?) ∧
    match outcome with
    | .ok _ => least ≤ passed.length ∧ s'.pos = s.pos + passed.length ∧ none ∉ passed
    | .error halt => ∃ e, halt = .refused e

/-- From every position of a text and with an allowance of twenty for each token ahead and for the
end, a parser and a reader do the same, and the parser does not run out of steps. -/
def Agrees (ls : List Lexeme) (stop : Nat) (p : Nat → Parser α) (q : Nat → Indexed α) : Prop :=
  ∀ (s : State) (n : Nat), s.pos ≤ ls.length → 20 * (ls.length + 1 - s.pos) ≤ n →
    (p n).Ensures (s.cursor ls stop)
      (fun a c ↦ ∃ s' : State, c = s'.cursor ls stop ∧ q n (table ls stop) s = some (.ok a, s'))
      (fun e ↦ e.fault ≠ .stalled ∧
        ∃ s', q n (table ls stop) s = some (.error (.refused e), s'))

section Settles

variable {p : Nat → Parser α} {q : Nat → Indexed α} {height least n : Nat}

/-- Every token makes up for twenty calls. -/
theorem Follows.settles {p : Parser α} (h : Follows ls stop n p q)
    (hlasts : Parser.Lasts n height least p) (hheight : height ≤ 20) (hs : s.pos ≤ ls.length)
    (hn : 20 * (ls.length + 1 - s.pos) ≤ n) : p.Ensures (s.cursor ls stop)
      (fun a c ↦ ∃ s', (Reaches ls s s' ∧ s.pos + least ≤ s'.pos) ∧ c = s'.cursor ls stop ∧
        ∀ m, n ≤ m → q m (table ls stop) s = some (.ok a, s'))
      (fun e ↦ e.fault ≠ .stalled ∧ ∃ s', Stops ls s s' ∧
        ∀ m, n ≤ m → q m (table ls stop) s = some (.error (.refused e), s')) := by
  have hlength (s : State) : (s.cursor ls stop).ahead.length = ls.length - s.pos :=
    List.length_drop
  have hsteps : 20 * (s.cursor ls stop).ahead.length + height ≤ n := by
    rw [hlength]
    omega
  refine ((h s hs).and (hlasts _ hsteps)).mono ?_ ?_
  · rintro a c ⟨⟨s', hreach, rfl, hq⟩, hleast⟩
    have hle := hreach.pos_le_length
    rw [hlength, hlength] at hleast
    exact ⟨s', ⟨hreach, by omega⟩, rfl, hq⟩
  · rintro e ⟨hstalled | hrefused, hlasts⟩
    · exact absurd hstalled hlasts
    · exact ⟨hlasts, hrefused⟩

theorem map_token?_table (ls : List Lexeme) (stop : Nat) :
    (table ls stop).toList.map (·.token?) = (ls.map (·.token)).map some ++ [none] := by
  simp [table, tokenEntry, Function.comp_def]

/-- The entries from a position on are the tokens up to another one and what follows them. -/
theorem drop_table (stop : Nat) {m n : Nat} (hmn : m ≤ n) (hn : n ≤ ls.length) :
    ((table ls stop).toList.drop m).map (·.token?) =
      (between ls m n).map some ++ (((ls.drop n).map (·.token)).map some ++ [none]) := by
  have hsplit : between ls m n ++ (ls.drop n).map (·.token) = (ls.drop m).map (·.token) := by
    rw [between, ← List.map_append, ← Nat.add_sub_of_le hmn, Nat.add_sub_cancel_left,
      ← List.drop_drop, List.take_append_drop]
  have hm : m ≤ ((ls.map (·.token)).map some).length := by
    rw [List.length_map, List.length_map]
    exact hmn.trans hn
  rw [← List.append_assoc, ← List.map_append, hsplit, List.map_drop, map_token?_table,
    List.drop_append_of_le_length hm, List.map_drop, List.map_drop]

/-- What has been passed over where a reader has stopped begins the rest of the table. -/
theorem Stops.isPrefix {s' : State} (h : Stops ls s s') : ∃ passed,
    s'.passed = s.passed ++ passed ∧
      passed <+: ((table ls stop).toList.drop s.pos).map (·.token?) := by
  obtain ⟨last, hlast, hpassed⟩ := h.passed_eq
  refine ⟨_, hpassed, ?_⟩
  rw [drop_table stop h.pos_le h.pos_le_length, List.prefix_append_right_inj]
  rcases hlast with rfl | ⟨hend, rfl⟩
  · exact List.nil_prefix
  · rw [hend, List.drop_length]
    exact List.prefix_rfl

/-- A reader returns where the parser that it follows settles. -/
theorem returns_of_follows (h : ∀ n, Follows ls stop n (p n) q)
    (hlasts : ∀ n, Parser.Lasts n height least (p n)) (hheight : height ≤ 20) :
    Returns (table ls stop) least q := by
  intro s hs
  have hsize := size_table ls stop
  rw [pos_lt_size_iff] at hs
  have hsettles := (h _).settles (hlasts _) hheight hs le_rfl
  rw [← hsize] at hsettles
  unfold Ensures at hsettles
  split at hsettles
  · obtain ⟨s', ⟨hreach, hleast⟩, -, hq⟩ := hsettles
    have hle := hreach.pos_le
    have hlength := length_between s.pos hreach.pos_le_length
    refine ⟨_, s', _, hq, hle, pos_lt_size_iff.2 hreach.pos_le_length, hreach.passed_eq, ?_, ?_⟩
    · rw [drop_table stop hle hreach.pos_le_length]
      exact List.prefix_append _ _
    · rw [List.length_map, hlength]
      exact ⟨by omega, by omega, by simp⟩
  · obtain ⟨-, s', hstops, hq⟩ := hsettles
    obtain ⟨passed, hpassed, hprefix⟩ := hstops.isPrefix
    exact ⟨_, s', passed, hq, hstops.pos_le, pos_lt_size_iff.2 hstops.pos_le_length, hpassed,
      hprefix, _, rfl⟩

theorem agrees_of_follows (h : ∀ n, Follows ls stop n (p n) q)
    (hlasts : ∀ n, Parser.Lasts n height least (p n)) (hheight : height ≤ 20) :
    Agrees ls stop p q := by
  intro s n hs hn
  refine ((h n).settles (hlasts n) hheight hs hn).mono ?_ ?_
  · rintro a c ⟨s', -, hc, hq⟩
    exact ⟨s', hc, hq n le_rfl⟩
  · rintro e ⟨hlasts, s', -, hq⟩
    exact ⟨hlasts, s', hq n le_rfl⟩

end Settles

/-- What holds of a reader that follows a parser, which does not run out of steps, holds of every
reader. -/
theorem eachReader_of_follows
    {P : {α : Type} → Nat → (Nat → Parser α) → (Nat → Indexed α) → Prop}
    (h : ∀ {α : Type} {height least : Nat} {p : Nat → Parser α} {q : Nat → Indexed α},
      (∀ n, Follows ls stop n (p n) q) → (∀ n, Parser.Lasts n height least (p n)) → height ≤ 20 →
      P least p q) : EachReader fun _ least p q ↦ P least p q := by
  have hf (n : Nat) : FollowsAt ls stop n := followsAt n
  have hl := Parser.lastsAt
  have hrow (r : Row) : Parser.rowHeight r ≤ 20 :=
    (Parser.rowHeight_le r).trans (by decide)
  exact {
    expr := h (hf · |>.expr) (hl · |>.expr) (by decide)
    conditional := h (hf · |>.conditional) (hl · |>.conditional) (by decide)
    row r := h (hf · |>.row r) (hl · |>.row r) (hrow r)
    rowRest r lhs := h (hf · |>.rowRest r lhs) (hl · |>.rowRest r lhs) (by decide)
    operand r := h (hf · |>.operand r) (hl · |>.operand r) ((Nat.sub_le _ _).trans (hrow r))
    inversion := h (hf · |>.inversion) (hl · |>.inversion) (by decide)
    comparison := h (hf · |>.comparison) (hl · |>.comparison) (by decide)
    links := h (hf · |>.links) (hl · |>.links) (by decide)
    factor := h (hf · |>.factor) (hl · |>.factor) (by decide)
    power := h (hf · |>.power) (hl · |>.power) (by decide)
    atom := h (hf · |>.atom) (hl · |>.atom) (by decide)
    parenthesized := h (hf · |>.parenthesized) (hl · |>.parenthesized) (by decide)
    bracketed := h (hf · |>.bracketed) (hl · |>.bracketed) (by decide)
    sequence close := h (hf · |>.sequence close) (hl · |>.sequence close) (by decide)
    clauses := h (hf · |>.clauses) (hl · |>.clauses) (by decide)
    clause := h (hf · |>.clause) (hl · |>.clause) (by decide)
    filters := h (hf · |>.filters) (hl · |>.filters) (by decide) }

/-! ### The whole of a text -/

/-- Where the whole of a text is read from. -/
def State.start : State :=
  ⟨0, 0, []⟩

/-- The end is passed over, and what is not the end is refused. -/
theorem expect_end_run (stop : Nat) (hs : s.pos ≤ ls.length) : expect none (table ls stop) s =
    match (s.cursor ls stop).peek? with
    | none => some (.ok (), s.next none)
    | some t =>
      some (.error (.refused ⟨(s.cursor ls stop).offset, .expected none (some t)⟩), s) := by
  have heat : eat none (table ls stop) s = match (s.cursor ls stop).peek? with
      | none => some (.ok true, s.next none)
      | some _ => some (.ok false, s) := by
    rw [eat, peek?_bind_run hs]
    cases hpeek : (s.cursor ls stop).peek? with
    | none => exact bind_of_ok (hpeek ▸ advance_run hs)
    | some t => rfl
  rw [expect, bind_run, heat]
  cases hpeek : (s.cursor ls stop).peek? with
  | none => rfl
  | some t =>
    dsimp only
    rw [if_neg Bool.false_ne_true, peek?_bind_run hs, hpeek]
    exact bind_of_ok (entry_run hs)

/-- The whole of a table is read as the parsers read it, and what is accepted has been passed over
entry by entry, once, with the end as the last of them. -/
theorem whole_run (ls : List Lexeme) (stop : Nat) :
    (Parser.whole (Expr.parseSteps ls)).Ensures (State.start.cursor ls stop)
      (fun e _ ↦ ∃ s' : State,
        (∀ n, Expr.parseSteps ls ≤ n → whole n (table ls stop) .start = some (.ok e, s')) ∧
          s'.pos ≤ ls.length ∧ s'.passed = (table ls stop).toList.map (·.token?))
      (fun e ↦ ∃ s' : State,
        (∀ n, Expr.parseSteps ls ≤ n →
          whole n (table ls stop) .start = some (.error (.refused e), s')) ∧
          s'.pos ≤ ls.length) := by
  have hexpr : Follows ls stop _ (Parser.expr _) expr := (followsAt (Expr.parseSteps ls)).expr
  have hlasts := (Parser.lastsAt (Expr.parseSteps ls)).expr
  rw [Parser.whole, ensures_bind]
  refine (hexpr.settles hlasts (by decide) (Nat.zero_le _) le_rfl).mono ?_ ?_
  · rintro e c ⟨s', ⟨hreach, -⟩, rfl, hrun⟩
    have hle := hreach.pos_le_length
    have hend := expect_end_run stop hle
    rw [ensures_bind, Parser.ensures_expectEnd]
    split
    · next hpeek =>
      rw [hpeek] at hend
      have hpassed := hreach.passed_eq
      have htable := drop_table stop hreach.pos_le hle
      rw [pos_eq_of_peek? hle hpeek] at hpassed htable
      rw [List.drop_length] at htable
      refine ⟨s'.next none, fun n hn ↦ ?_, hle, ?_⟩
      · exact (bind_of_ok (hrun n hn)).trans (bind_of_ok hend)
      · rw [State.next, hpassed]
        exact htable.symm
    · next t hpeek =>
      rw [hpeek] at hend
      exact ⟨s', fun n hn ↦ (bind_of_ok (hrun n hn)).trans (bind_of_error hend), hle⟩
  · rintro e ⟨-, s', hstops, hrun⟩
    exact ⟨s', fun n hn ↦ bind_of_error (hrun n hn), hstops.pos_le_length⟩

/-- The whole of a table is accepted or refused inside of it. -/
theorem whole_returns (ls : List Lexeme) (stop : Nat) : ∃ outcome s',
    (∀ n, 20 * (table ls stop).size ≤ n → whole n (table ls stop) .start = some (outcome, s')) ∧
      s'.pos < (table ls stop).size ∧
      match outcome with
      | .ok _ => s'.passed = (table ls stop).toList.map (·.token?)
      | .error halt => ∃ e, halt = .refused e := by
  have hwhole := whole_run ls stop
  have hsize := size_table ls stop
  rw [Expr.parseSteps, ← hsize] at hwhole
  unfold Ensures at hwhole
  split at hwhole
  · obtain ⟨s', hrun, hpos, hpassed⟩ := hwhole
    exact ⟨_, s', hrun, pos_lt_size_iff.2 hpos, hpassed⟩
  · obtain ⟨s', hrun, hpos⟩ := hwhole
    exact ⟨_, s', hrun, pos_lt_size_iff.2 hpos, _, rfl⟩

/-- The outcome for the table of a text is that of `Expr.parseTokens`. -/
theorem whole_eq (text : String) (ls : List Lexeme) : ∃ s' : State, ∀ n, Expr.parseSteps ls ≤ n →
    whole n (table ls text.utf8ByteSize) .start =
      some ((Expr.parseTokens text ls).mapError .refused, s') := by
  have hparse : Expr.parseTokens text ls =
      (Parser.whole (Expr.parseSteps ls) (State.start.cursor ls text.utf8ByteSize)).map Prod.fst :=
    rfl
  have hwhole := whole_run ls text.utf8ByteSize
  unfold Ensures at hwhole
  rw [hparse]
  split at hwhole
  · next e c heq =>
    obtain ⟨s', hrun, -⟩ := hwhole
    rw [heq]
    exact ⟨s', hrun⟩
  · next e heq =>
    obtain ⟨s', hrun, -⟩ := hwhole
    rw [heq]
    exact ⟨s', hrun⟩

/-- A table of tokens that ends with its only end is read, well-formed or not, by calls none of
which looks outside of it and of which twenty at most are open for each entry. From every position
each function of the grammar returns: what it reads has at least one token, each passed over once
and none of them the end, and it refuses the text otherwise. So does each loop, except that a loop
may read nothing. The whole of the table, if it is accepted, has been passed over entry by entry
with the end as the last one. The parsers do the same at every place of a text, within the allowance
of the text.

Assumes: the end is at the last position of the table and nowhere else. -/
theorem readers_return_in_bounds {entries : Array Entry} (h : Closed entries) :
    (EachReader fun _ least _ q ↦ Returns entries least q) ∧
      (∃ outcome s',
        (∀ n, 20 * entries.size ≤ n → whole n entries .start = some (outcome, s')) ∧
        s'.pos < entries.size ∧
        match outcome with
        | .ok _ => s'.passed = entries.toList.map (·.token?)
        | .error halt => ∃ e, halt = .refused e) ∧
      ∀ text ls, entries = table ls text.utf8ByteSize →
        (EachReader fun _ _ p q ↦ Agrees ls text.utf8ByteSize p q) ∧
          ∃ s', ∀ n, Expr.parseSteps ls ≤ n → whole n entries .start =
            some ((Expr.parseTokens text ls).mapError .refused, s') := by
  refine ⟨?_, ?_, ?_⟩
  · obtain ⟨ls, stop, rfl⟩ := exists_table h
    exact eachReader_of_follows returns_of_follows
  · obtain ⟨ls, stop, rfl⟩ := exists_table h
    exact whole_returns ls stop
  · rintro text ls rfl
    exact ⟨eachReader_of_follows agrees_of_follows, whole_eq text ls⟩

/-- A clause that is cut off after `for` is refused at the end. -/
theorem readers_return_in_bounds_cut :
    Closed (table [⟨.mark .bracketOpen, 0⟩, ⟨.name "x", 1⟩, ⟨.mark .kwFor, 3⟩] 6) ∧
      ∃ s' : State, s'.pos < 4 ∧ ∀ n, 80 ≤ n →
        whole n (table [⟨.mark .bracketOpen, 0⟩, ⟨.name "x", 1⟩, ⟨.mark .kwFor, 3⟩] 6) .start =
          some (.error (.refused ⟨6, .expectedVariable none⟩), s') := by
  have hclosed := closed_table [⟨.mark .bracketOpen, 0⟩, ⟨.name "x", 1⟩, ⟨.mark .kwFor, 3⟩] 6
  obtain ⟨-, ⟨outcome, s', hrun, hpos, -⟩, htexts⟩ := readers_return_in_bounds hclosed
  obtain ⟨-, s'', hrun'⟩ := htexts "[x for"
    [⟨.mark .bracketOpen, 0⟩, ⟨.name "x", 1⟩, ⟨.mark .kwFor, 3⟩] rfl
  have hparse : Expr.parseTokens "[x for" [⟨.mark .bracketOpen, 0⟩, ⟨.name "x", 1⟩,
      ⟨.mark .kwFor, 3⟩] = .error ⟨6, .expectedVariable none⟩ := rfl
  rw [hparse] at hrun'
  have hsame := (hrun 80 le_rfl).symm.trans (hrun' 80 le_rfl)
  obtain ⟨rfl, rfl⟩ := Prod.mk.inj (Option.some.inj hsame)
  exact ⟨hclosed, s', hpos, hrun⟩

end Indexed

end Waypoints
