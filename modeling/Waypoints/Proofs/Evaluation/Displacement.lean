import Mathlib.Tactic.SplitIfs
import Waypoints.Proofs.Evaluation.Poles
import Waypoints.Proofs.Evaluation.Scoping
import Waypoints.Proofs.Expr.Shapes
/-!
# Formulas that only displace

Most formulas use the coordinates `x` and `y` in one way: their waypoints are pairs of these with
something added that does not depend on them (`Expr.displaces`). Such a formula is evaluated at any
place as it is at the origin, with every waypoint displaced by the place (`Expr.follows_displaced`),
also where the place is infinite or a wildcard. The reason is that what does not use the coordinates
has the same outcome everywhere (`Env.Displaces.eval_eq`), and that a sum with a finite number is
refused nowhere.
-/

set_option autoImplicit false
set_option relaxedAutoImplicit false

namespace Waypoints

open Number (Same)

/-! ### Expressions that do not depend on the place -/

/-- Names none of which is a coordinate of the place. -/
def Steady (words : List String) : Prop :=
  "x" ∉ words ∧ "y" ∉ words

instance (words : List String) : Decidable (Steady words) :=
  inferInstanceAs (Decidable (_ ∧ _))

theorem steady_cons {word : String} {words : List String} :
    Steady (word :: words) ↔ (word ≠ "x" ∧ word ≠ "y") ∧ Steady words := by
  simp only [Steady, List.mem_cons, not_or, ne_comm (a := word)]
  exact and_and_and_comm

theorem steady_append {words words' : List String} :
    Steady (words ++ words') ↔ Steady words ∧ Steady words' := by
  simp only [Steady, List.mem_append, not_or]
  exact and_and_and_comm

/-- An expression that avoids a name has the same outcome in environments that agree on all other
names. -/
theorem Expr.eval_congr {e : Expr} {word : String} {env env' : Env} (hword : word ∉ e.words)
    (h : ∀ other, other ≠ word → env'.find other = env.find other) : e.eval env' = e.eval env := by
  have hcarries {env : Env} (h : ∀ other, other ≠ word → env'.find other = env.find other) :
      Env.Carries id word env env' := ⟨fun _ ↦ .inl rfl, h⟩
  exact (eval_rename hword (hcarries fun _ _ ↦ rfl)).symm.trans (eval_rename hword (hcarries h))

/-- The first environment is at the origin and the second at a place. All other names stand for the
same. -/
structure Env.Displaces (place : Point) (env env' : Env) : Prop where
  x_origin : env.find "x" = .ok (.number 0)
  y_origin : env.find "y" = .ok (.number 0)
  x_place : env'.find "x" = .ok (.number place.x)
  y_place : env'.find "y" = .ok (.number place.y)
  find_eq : ∀ word, word ≠ "x" → word ≠ "y" → env'.find word = env.find word

namespace Env.Displaces

variable {place : Point} {env env' : Env}

theorem ofPlace (place : Point) (board : Board) (anyOk : Bool) :
    Displaces place (.ofBoard (.ofPlace .zero board anyOk))
      (.ofBoard (.ofPlace place board anyOk)) where
  x_origin := rfl
  y_origin := rfl
  x_place := rfl
  y_place := rfl
  find_eq word hx hy := by
    unfold find ofBoard Bindings.find
    simp only [List.lookup_nil, if_neg hx, if_neg hy]
    rfl

theorem bind (h : Displaces place env env') {loopVar : String}
    (hvar : loopVar ≠ "x" ∧ loopVar ≠ "y") (item : Value) :
    Displaces place (env.bind loopVar item) (env'.bind loopVar item) where
  x_origin := (find_bind_of_ne hvar.1.symm env item).trans h.x_origin
  y_origin := (find_bind_of_ne hvar.2.symm env item).trans h.y_origin
  x_place := (find_bind_of_ne hvar.1.symm env' item).trans h.x_place
  y_place := (find_bind_of_ne hvar.2.symm env' item).trans h.y_place
  find_eq word hx hy := by
    by_cases hword : word = loopVar
    · rw [hword, find_bind_self, find_bind_self]
    · rw [find_bind_of_ne hword, find_bind_of_ne hword, h.find_eq word hx hy]

/-- What does not use the coordinates has the same outcome at the origin and at the place. -/
theorem eval_eq (h : Displaces place env env') {e : Expr} (he : Steady e.words) :
    e.eval env' = e.eval env := by
  -- Between the two is the place `(place.x, 0)`, which differs from either in one name.
  have hy : e.eval (env'.bind "y" (.number 0)) = e.eval env' :=
    Expr.eval_congr he.2 fun other hother ↦ find_bind_of_ne hother env' _
  have hx : e.eval (env'.bind "y" (.number 0)) = e.eval env := by
    refine Expr.eval_congr he.1 fun other hother ↦ ?_
    by_cases hy : other = "y"
    · rw [hy, find_bind_self, h.y_origin]
    · rw [find_bind_of_ne hy, h.find_eq other hother hy]
  exact hy.symm.trans hx

theorem evalFilters_eq (h : Displaces place env env') {filters : List Expr}
    (hfilters : Steady (Expr.rowWords filters)) :
    Expr.evalFilters filters env' = Expr.evalFilters filters env := by
  induction filters with
  | nil => rfl
  | cons e filters ih =>
    obtain ⟨he, hrest⟩ := steady_append.1 hfilters
    rw [Expr.evalFilters, Expr.evalFilters, h.eval_eq he, ih hrest]

end Env.Displaces

/-! ### Displaced values -/

mutual

/-- A value built from coordinates, and the same value with its coordinates displaced, up to the
signs of zeros. -/
inductive Value.Displaced (place : Point) : Value → Value → Prop
  | point {d p : Point} : Same p.x (place.x + d.x) → Same p.y (place.y + d.y) →
      Value.Displaced place (.tuple [.number d.x, .number d.y]) (.tuple [.number p.x, .number p.y])
  | list {vs ws : List Value} :
      Value.DisplacedAll place vs ws → Value.Displaced place (.list vs) (.list ws)

/-- Rows of values that are displaced one by one. -/
inductive Value.DisplacedAll (place : Point) : List Value → List Value → Prop
  | nil : Value.DisplacedAll place [] []
  | cons {v w : Value} {vs ws : List Value} : Value.Displaced place v w →
      Value.DisplacedAll place vs ws → Value.DisplacedAll place (v :: vs) (w :: ws)

end

/-- A point displaced, up to the signs of zeros. -/
def Point.Displaced (place d p : Point) : Prop :=
  Same p.x (place.x + d.x) ∧ Same p.y (place.y + d.y)

/-- A path displaced point by point. -/
abbrev Path.Displaced (place : Point) : Path → Path → Prop :=
  List.Forall₂ (Point.Displaced place)

namespace Value

variable {place : Point} {v w : Value} {vs ws : List Value}

mutual

theorem Displaced.weight_eq {v w : Value} : Displaced place v w → v.weight = w.weight
  | .point _ _ => rfl
  | .list h => congrArg (· + 1) h.totalWeight_eq

theorem DisplacedAll.totalWeight_eq {vs ws : List Value} :
    DisplacedAll place vs ws → totalWeight vs = totalWeight ws
  | .nil => rfl
  | .cons h hall => congrArg₂ (· + ·) h.weight_eq hall.totalWeight_eq

end

theorem DisplacedAll.append {vs' ws' : List Value} (h : DisplacedAll place vs ws)
    (h' : DisplacedAll place vs' ws') : DisplacedAll place (vs ++ vs') (ws ++ ws') := by
  induction vs generalizing ws with
  | nil =>
    cases h
    exact h'
  | cons v vs ih =>
    cases h with
    | cons hv hvs => exact .cons hv (ih hvs)

theorem DisplacedAll.flatten {rows rows' : List (List Value)}
    (h : List.Forall₂ (DisplacedAll place) rows rows') :
    DisplacedAll place rows.flatten rows'.flatten := by
  induction h with
  | nil => exact .nil
  | cons hrow _ ih => exact hrow.append ih

section Shapes

variable {α : Type} {reads : Value → α → Prop} {ok : α → α → Prop} {as : List α}

/-- A row of things that are no numbers is displaced one by one. -/
theorem Displaced.isRow (hnumber : ∀ x a, ¬reads (.number x) a)
    (hreads : ∀ v w a, Displaced place v w → reads v a → ∃ b, reads w b ∧ ok a b)
    (h : Displaced place v w) (hrow : IsRow reads v as) :
    ∃ bs, IsRow reads w bs ∧ List.Forall₂ ok as bs := by
  obtain ⟨items, hitems, hne, hall⟩ := hrow
  cases h with
  | point =>
    obtain rfl := hitems.unique (.inl rfl)
    cases hall with
    | cons hfirst _ => exact absurd hfirst (hnumber _ _)
  | @list vs ws hvs =>
    obtain rfl := hitems.unique (.inr rfl)
    suffices h : ∃ bs, List.Forall₂ reads ws bs ∧ List.Forall₂ ok as bs by
      obtain ⟨bs, hbs, hok⟩ := h
      refine ⟨bs, ⟨ws, .inr rfl, ?_, hbs⟩, hok⟩
      rintro rfl
      cases hvs
      exact hne rfl
    clear hitems hne
    induction hall generalizing ws with
    | nil =>
      cases hvs
      exact ⟨[], .nil, .nil⟩
    | cons hread _ ih =>
      cases hvs with
      | cons hv hvs =>
        obtain ⟨b, hb, hab⟩ := hreads _ _ _ hv hread
        obtain ⟨bs, hbs, hok⟩ := ih hvs
        exact ⟨b :: bs, .cons hb hbs, .cons hab hok⟩

theorem Displaced.isPoint {d : Point} (h : Displaced place v w) (hd : v.IsPoint d) :
    ∃ p, w.IsPoint p ∧ Point.Displaced place d p := by
  cases h with
  | @point d' p hx hy =>
    obtain rfl : d' = d := rightUnique_isPoint (.inl rfl) hd
    exact ⟨p, .inl rfl, hx, hy⟩
  | list hall =>
    obtain rfl := IsSequence.unique (.inr rfl) hd
    cases hall with
    | cons hfirst _ => cases hfirst

theorem Displaced.isPath {path : Path} (h : Displaced place v w) (hpath : v.IsPath path) :
    ∃ path', w.IsPath path' ∧ Path.Displaced place path path' :=
  h.isRow (fun _ _ ↦ not_isSequence_number _) (fun _ _ _ ↦ Displaced.isPoint) hpath

/-- Displaced values have one shape, with displaced paths. -/
theorem Displaced.hasShape {s : Shape} {paths : List Path} (h : Displaced place v w)
    (hshape : v.HasShape s paths) :
    ∃ paths', w.HasShape s paths' ∧ List.Forall₂ (Path.Displaced place) paths paths' := by
  cases hshape with
  | point hd =>
    obtain ⟨p, hp, hdp⟩ := h.isPoint hd
    exact ⟨[[p]], .point hp, .cons (.cons hdp .nil) .nil⟩
  | path hpath =>
    obtain ⟨path', hpath', hdisplaced⟩ := h.isPath hpath
    exact ⟨[path'], .path hpath', .cons hdisplaced .nil⟩
  | paths hpaths =>
    have hnumber (x : Float) (path : Path) : ¬(number x).IsPath path :=
      fun ⟨_, hitems, _⟩ ↦ not_isSequence_number x hitems
    obtain ⟨paths', hpaths', hdisplaced⟩ :=
      h.isRow hnumber (fun _ _ _ ↦ Displaced.isPath) hpaths
    exact ⟨paths', .paths hpaths', hdisplaced⟩

end Shapes

end Value

/-! ### Steps -/

section Steps

open StateT (bind_eq_ok_iff)

variable {α β γ δ : Type}

/-- Where the first step has a result of a kind, the second has a related one and leaves as much of
the budget. -/
def Follows (fine : α → Prop) (ok : α → β → Prop) (x : EvalM α) (y : EvalM β) : Prop :=
  ∀ n a left, x n = .ok (a, left) → fine a → ∃ b, y n = .ok (b, left) ∧ ok a b

variable {fine : α → Prop} {ok : α → β → Prop} {x : EvalM α} {y : EvalM β}

theorem follows_pure {a : α} {b : β} (h : ok a b) : Follows fine ok (pure a) (pure b) := by
  rintro n a' left heq -
  obtain ⟨rfl, rfl⟩ := Prod.mk.inj (Except.ok.inj heq)
  exact ⟨b, rfl, h⟩

/-- Steps that go on alike after the same step. -/
theorem Follows.after (z : EvalM γ) {f : γ → EvalM α} {g : γ → EvalM β}
    (h : ∀ c, Follows fine ok (f c) (g c)) : Follows fine ok (z >>= f) (z >>= g) := by
  intro n a left heq hfine
  obtain ⟨c, n', hz, hf⟩ := bind_eq_ok_iff.1 heq
  obtain ⟨b, hg, hok⟩ := h c n' a left hf hfine
  exact ⟨b, bind_eq_ok_iff.2 ⟨c, n', hz, hg⟩, hok⟩

theorem Follows.bind {fine' : γ → Prop} {ok' : γ → δ → Prop} {f : α → EvalM γ} {g : β → EvalM δ}
    (h : Follows fine ok x y)
    (hfine : ∀ a n c left, f a n = .ok (c, left) → fine' c → fine a)
    (hf : ∀ a b, ok a b → Follows fine' ok' (f a) (g b)) :
    Follows fine' ok' (x >>= f) (y >>= g) := by
  intro n c left heq hc
  obtain ⟨a, n', hx, hfa⟩ := bind_eq_ok_iff.1 heq
  obtain ⟨b, hy, hab⟩ := h n a n' hx (hfine a n' c left hfa hc)
  obtain ⟨d, hg, hcd⟩ := hf a b hab n' c left hfa hc
  exact ⟨d, bind_eq_ok_iff.2 ⟨b, n', hy, hg⟩, hcd⟩

theorem Follows.map {fine' : γ → Prop} {ok' : γ → δ → Prop} {f : α → γ} {g : β → δ}
    (h : Follows fine ok x y) (hfine : ∀ a, fine' (f a) → fine a)
    (hok : ∀ a b, ok a b → ok' (f a) (g b)) :
    Follows fine' ok' (x >>= fun a ↦ pure (f a)) (y >>= fun b ↦ pure (g b)) := by
  refine h.bind (fun a n c left heq hc ↦ ?_) fun a b hab ↦ follows_pure (hok a b hab)
  obtain ⟨rfl, -⟩ := Prod.mk.inj (Except.ok.inj heq)
  exact hfine a hc

theorem Follows.mapM {f : γ → EvalM α} {g : γ → EvalM β} (h : ∀ c, Follows fine ok (f c) (g c))
    (cs : List γ) :
    Follows (fun as ↦ ∀ a ∈ as, fine a) (List.Forall₂ ok) (cs.mapM f) (cs.mapM g) := by
  induction cs with
  | nil => exact follows_pure .nil
  | cons c cs ih =>
    rw [List.mapM_cons, List.mapM_cons]
    intro n as left heq hfine
    obtain ⟨a, n', hf, heq⟩ := bind_eq_ok_iff.1 heq
    obtain ⟨rest, n'', hrest, heq⟩ := bind_eq_ok_iff.1 heq
    obtain ⟨rfl, rfl⟩ := Prod.mk.inj (Except.ok.inj heq)
    obtain ⟨ha, hall⟩ := List.forall_mem_cons.1 hfine
    obtain ⟨b, hg, hab⟩ := h c n a n' hf ha
    obtain ⟨bs, hbs, hok⟩ := ih n' rest n'' hrest hall
    exact ⟨b :: bs, bind_eq_ok_iff.2 ⟨b, n', hg, bind_eq_ok_iff.2 ⟨bs, n'', hbs, rfl⟩⟩,
      .cons hab hok⟩

end Steps

/-! ### Evaluation -/

open StateT (bind_eq_ok_iff liftM_eq_ok_iff)

/-- All numbers in a value are finite. -/
def Value.IsFinite (v : Value) : Prop :=
  ∀ x ∈ v.numbers, x.isFinite

/-- All numbers in a row of values are finite if those in each of them are. -/
theorem Value.forall_mem_allNumbers {p : Float → Prop} {vs : List Value} :
    (∀ x ∈ allNumbers vs, p x) ↔ ∀ v ∈ vs, ∀ x ∈ v.numbers, p x := by
  induction vs with
  | nil => exact iff_of_true (List.forall_mem_nil _) (List.forall_mem_nil _)
  | cons v vs ih => rw [allNumbers, List.forall_mem_append, List.forall_mem_cons, ih]

theorem Value.isFinite_pair {v w : Value} :
    (tuple [v, w]).IsFinite ↔ v.IsFinite ∧ w.IsFinite := by
  unfold IsFinite
  rw [numbers, forall_mem_allNumbers, List.forall_mem_cons, List.forall_mem_singleton]

/-- Sums and differences with a number that make a finite one of 0 move any other number by that,
and are refused nowhere. -/
theorem BinaryOp.arithmetic_of_origin {op : BinaryOp} (hop : op = .add ∨ op = .sub) {a d : Float}
    (h : op.arithmetic 0 a = .ok d) (hd : d.isFinite) (c : Float) :
    ∃ x, op.arithmetic c a = .ok x ∧ Same x (c + d) := by
  obtain ⟨b, hb⟩ : ∃ b, ∀ c, op.compute c a = .ok (c + b) := by
    rcases hop with rfl | rfl
    · exact ⟨a, fun _ ↦ rfl⟩
    · exact ⟨-a, fun c ↦ congrArg Except.ok (Number.sub_eq_add_neg c a)⟩
  have hd' : d = 0 + b := by
    unfold arithmetic at h
    rw [hb] at h
    change (if _ then _ else _) = _ at h
    split_ifs at h
    exact (Except.ok.inj h).symm
  have hsame : Same b d := hd' ▸ (Number.same_zero_add b).symm
  refine ⟨c + b, ?_, (Same.refl c).add hsame⟩
  have hnan : (c + b).isNaN = c.isNaN := by
    rw [Number.add_comm]
    exact Number.isNaN_add_of_isFinite (hsame.isFinite_eq.trans hd)
  rw [arithmetic, hb]
  change (if _ then _ else _) = _
  rw [hnan]
  cases c.isNaN <;> rfl

theorem BinaryOp.onNumbers_number_eq_ok_iff {op : BinaryOp} {c : Float} {r v : Value} :
    op.onNumbers (.number c) r = .ok v ↔
      ∃ a x, r.toNumber? = some a ∧ op.arithmetic c a = .ok x ∧ v = .number x := by
  have hc : (Value.number c).toNumber? = some c := rfl
  unfold onNumbers
  rw [hc]
  cases r.toNumber? with
  | none => exact iff_of_false nofun fun ⟨_, _, ha, _⟩ ↦ nomatch ha
  | some a =>
    change (op.arithmetic c a).map Value.number = .ok v ↔ _
    cases hx : op.arithmetic c a with
    | error fault =>
      refine iff_of_false nofun ?_
      rintro ⟨_, x, ha, hx', -⟩
      obtain rfl := Option.some.inj ha
      cases hx.symm.trans hx'
    | ok x =>
      constructor
      · exact fun h ↦ ⟨a, x, rfl, hx, (Except.ok.inj h).symm⟩
      · rintro ⟨_, x', ha, hx', rfl⟩
        obtain rfl := Option.some.inj ha
        rw [Except.ok.inj (hx.symm.trans hx')]
        rfl

namespace Expr

/-- The coordinate of this name, or the coordinate with something added or subtracted that does not
depend on the place. -/
def shifts (word : String) : Expr → Bool
  | name word' => word' == word
  | binary .add (name word') offset => word' == word && decide (Steady offset.words)
  | binary .sub (name word') offset => word' == word && decide (Steady offset.words)
  | _ => false

mutual

/-- A pair of the two coordinates with something added, or lists and comprehensions of such pairs,
whose clauses do not depend on the place. -/
def displaces : Expr → Bool
  | tuple [x, y] => x.shifts "x" && y.shifts "y"
  | list items => rowDisplaces items
  | comprehension element clauses => decide (Steady (clauseWords clauses)) && displaces element
  | _ => false

/-- All expressions of a row displace. -/
def rowDisplaces : List Expr → Bool
  | [] => true
  | e :: es => displaces e && rowDisplaces es

end

theorem exists_of_shifts {word : String} {e : Expr} (h : e.shifts word) :
    e = name word ∨ ∃ op offset, (op = .add ∨ op = .sub) ∧ Steady offset.words ∧
      e = binary op (name word) offset := by
  unfold shifts at h
  split at h
  · exact .inl (congrArg name (beq_iff_eq.1 h))
  · obtain ⟨hword, hoffset⟩ := Bool.and_eq_true_iff.1 h
    exact .inr ⟨_, _, .inl rfl, of_decide_eq_true hoffset, by rw [beq_iff_eq.1 hword]⟩
  · obtain ⟨hword, hoffset⟩ := Bool.and_eq_true_iff.1 h
    exact .inr ⟨_, _, .inr rfl, of_decide_eq_true hoffset, by rw [beq_iff_eq.1 hword]⟩
  · cases h

theorem exists_of_displaces_tuple {items : List Expr} (h : (tuple items).displaces) :
    ∃ x y, items = [x, y] ∧ x.shifts "x" ∧ y.shifts "y" := by
  unfold displaces at h
  split at h
  · next heq =>
    obtain rfl := tuple.inj heq
    obtain ⟨hx, hy⟩ := Bool.and_eq_true_iff.1 h
    exact ⟨_, _, rfl, hx, hy⟩
  · cases ‹tuple items = list _›
  · cases ‹tuple items = comprehension _ _›
  · cases h

theorem forall_displaces {es : List Expr} : rowDisplaces es ↔ ∀ e ∈ es, e.displaces := by
  induction es with
  | nil => exact iff_of_true rfl (List.forall_mem_nil _)
  | cons e es ih => rw [rowDisplaces, Bool.and_eq_true, List.forall_mem_cons, ih]

section Displaced

variable {place : Point} {env env' : Env}

/-- A coordinate with something added moves with the place. -/
theorem follows_shift {word : String} {c : Float} {e : Expr} (he : e.shifts word)
    (horigin : env.find word = .ok (.number 0)) (hplace : env'.find word = .ok (.number c))
    (hsteady : ∀ e : Expr, Steady e.words → e.eval env' = e.eval env) :
    Follows Value.IsFinite (fun v w ↦ ∃ d x, v = .number d ∧ w = .number x ∧ Same x (c + d))
      (e.eval env) (e.eval env') := by
  have hname (n : Nat) : (name word).eval env n = .ok (.number 0, n) := by
    rw [eval, horigin]
    rfl
  have hname' (n : Nat) : (name word).eval env' n = .ok (.number c, n) := by
    rw [eval, hplace]
    rfl
  intro n v left heval hfine
  rcases exists_of_shifts he with rfl | ⟨op, offset, hop, hoffset, rfl⟩
  · obtain ⟨rfl, rfl⟩ := Prod.mk.inj (Except.ok.inj ((hname n).symm.trans heval))
    have hsame : Same c (c + 0) := by
      rw [Number.add_comm]
      exact (Number.same_zero_add c).symm
    exact ⟨.number c, hname' n, 0, c, rfl, rfl, hsame⟩
  · have hnumbers (x : Float) (r : Value) :
        op.apply (.number x) r = liftM (op.onNumbers (.number x) r) := by
      rcases hop with rfl | rfl <;> rfl
    rw [eval, StateT.bind_of_ok (hname n)] at heval
    obtain ⟨r, n', hr, heval⟩ := bind_eq_ok_iff.1 heval
    rw [hnumbers] at heval
    obtain ⟨hsum, rfl⟩ := liftM_eq_ok_iff.1 heval
    obtain ⟨a, d, ha, hd, rfl⟩ := BinaryOp.onNumbers_number_eq_ok_iff.1 hsum
    obtain ⟨x, hx, hsame⟩ := BinaryOp.arithmetic_of_origin hop hd (hfine d List.mem_cons_self) c
    refine ⟨.number x, ?_, d, x, rfl, rfl, hsame⟩
    rw [eval, StateT.bind_of_ok (hname' n), hsteady offset hoffset, StateT.bind_of_ok hr, hnumbers]
    exact liftM_eq_ok_iff.2 ⟨BinaryOp.onNumbers_number_eq_ok_iff.2 ⟨a, x, ha, hx, rfl⟩, rfl⟩

theorem follows_evalAll {es : List Expr}
    (h : ∀ e ∈ es, Follows Value.IsFinite (Value.Displaced place) (e.eval env) (e.eval env')) :
    Follows (fun vs ↦ ∀ v ∈ vs, v.IsFinite) (Value.DisplacedAll place) (evalAll es env)
      (evalAll es env') := by
  induction es with
  | nil => exact follows_pure .nil
  | cons e es ih =>
    obtain ⟨he, hes⟩ := List.forall_mem_cons.1 h
    rw [evalAll, evalAll]
    refine he.bind (fun v n vs left heval hfine ↦ ?_) fun v w hvw ↦ ?_
    · obtain ⟨rest, n', -, heval⟩ := bind_eq_ok_iff.1 heval
      obtain ⟨rfl, -⟩ := Prod.mk.inj (Except.ok.inj heval)
      exact (List.forall_mem_cons.1 hfine).1
    · exact (ih hes).map (fun rest hfine ↦ (List.forall_mem_cons.1 hfine).2)
        fun rest rest' hrest ↦ .cons hvw hrest

theorem follows_buildElement {element : Expr}
    (h : Follows Value.IsFinite (Value.Displaced place) (element.eval env) (element.eval env')) :
    Follows (fun vs ↦ ∀ v ∈ vs, v.IsFinite) (Value.DisplacedAll place) (buildElement element env)
      (buildElement element env') := by
  refine h.bind (fun v n vs left heval hfine ↦ ?_) fun v w hvw ↦ ?_
  · obtain ⟨-, n', -, heval⟩ := bind_eq_ok_iff.1 heval
    obtain ⟨rfl, -⟩ := Prod.mk.inj (Except.ok.inj heval)
    exact hfine v List.mem_cons_self
  · rw [hvw.weight_eq]
    exact .after _ fun _ ↦ follows_pure (.cons hvw .nil)

theorem follows_evalClauses {element : Expr} {clauses : List Clause}
    (hclauses : Steady (clauseWords clauses)) (h : env.Displaces place env')
    (helement : ∀ {env env' : Env}, env.Displaces place env' →
      Follows Value.IsFinite (Value.Displaced place) (element.eval env) (element.eval env')) :
    Follows (fun vs ↦ ∀ v ∈ vs, v.IsFinite) (Value.DisplacedAll place)
      (evalClauses (buildElement element) clauses env)
      (evalClauses (buildElement element) clauses env') := by
  induction clauses generalizing env env' with
  | nil => exact follows_buildElement (helement h)
  | cons c clauses ih =>
    obtain ⟨loopVar, items, filters⟩ := c
    obtain ⟨hvar, hparts⟩ := steady_cons.1 hclauses
    obtain ⟨hitems, hparts⟩ := steady_append.1 hparts
    obtain ⟨hfilters, hlater⟩ := steady_append.1 hparts
    have hitem (item : Value) : Follows (fun vs ↦ ∀ v ∈ vs, v.IsFinite) (Value.DisplacedAll place)
        (evalItem (buildElement element) (.mk loopVar items filters) clauses env item)
        (evalItem (buildElement element) (.mk loopVar items filters) clauses env' item) := by
      have hbind := h.bind hvar item
      unfold evalItem
      dsimp only [Clause.filters, Clause.loopVar]
      rw [hbind.evalFilters_eq hfilters]
      refine .after _ fun holds ↦ ?_
      cases holds with
      | true => exact ih hlater hbind
      | false => exact follows_pure .nil
    rw [evalClauses_cons, evalClauses_cons]
    dsimp only [Clause.items]
    rw [h.eval_eq hitems]
    refine .after _ fun v ↦ .after _ fun run ↦ ?_
    exact (Follows.mapM hitem run).map
      (fun rows hfine row hrow v hv ↦ hfine v (List.mem_flatten.2 ⟨row, hrow, hv⟩))
      fun rows rows' ↦ .flatten

theorem eval_pair (x y : Expr) (env : Env) : (tuple [x, y]).eval env = do
    let v ← x.eval env
    let w ← y.eval env
    return .tuple [v, w] := by
  simp only [eval, evalAll, bind_assoc, pure_bind]

/-- A formula that only displaces is evaluated at a place as at the origin, with its coordinates
displaced by the place. -/
theorem follows_displaced {e : Expr} (he : e.displaces) (h : env.Displaces place env') :
    Follows Value.IsFinite (Value.Displaced place) (e.eval env) (e.eval env') := by
  induction e generalizing env env' with
  | tuple items ih =>
    obtain ⟨x, y, rfl, hx, hy⟩ := exists_of_displaces_tuple he
    have hx := follows_shift hx h.x_origin h.x_place fun _ ↦ h.eval_eq
    have hy := follows_shift hy h.y_origin h.y_place fun _ ↦ h.eval_eq
    rw [eval_pair, eval_pair]
    refine hx.bind (fun v n t left heval hfine ↦ ?_) fun v v' hv ↦
      hy.map (fun w hfine ↦ (Value.isFinite_pair.1 hfine).2) fun w w' hw ↦ ?_
    · obtain ⟨w, n', -, heval⟩ := bind_eq_ok_iff.1 heval
      obtain ⟨rfl, -⟩ := Prod.mk.inj (Except.ok.inj heval)
      exact (Value.isFinite_pair.1 hfine).1
    · obtain ⟨dx, px, rfl, rfl, hpx⟩ := hv
      obtain ⟨dy, py, rfl, rfl, hpy⟩ := hw
      exact Value.Displaced.point (d := ⟨dx, dy⟩) (p := ⟨px, py⟩) hpx hpy
  | list items ih =>
    have hall : ∀ e ∈ items, e.displaces := forall_displaces.1 he
    rw [eval, eval]
    exact (follows_evalAll fun e hmem ↦ ih e hmem (hall e hmem) h).map
      (fun vs ↦ Value.forall_mem_allNumbers.1) fun vs ws ↦ .list
  | comprehension element clauses ihe ihc =>
    obtain ⟨hclauses, helement⟩ := Bool.and_eq_true_iff.1 he
    rw [eval_comprehension, eval_comprehension]
    exact (follows_evalClauses (of_decide_eq_true hclauses) h (ihe helement)).map
      (fun vs ↦ Value.forall_mem_allNumbers.1) fun vs ws ↦ .list
  | _ => cases he

end Displaced

theorem evaluate_eq_ok_iff {e : Expr} {b : Bindings} {v : Value} :
    e.evaluate b = .ok v ↔ ∃ left, e.eval (.ofBoard b) maxValues = .ok (v, left) := by
  change Except.map Prod.fst (e.eval (.ofBoard b) maxValues) = _ ↔ _
  rcases e.eval (.ofBoard b) maxValues with fault | ⟨w, left⟩
  · exact ⟨nofun, nofun⟩
  · constructor
    · exact fun h ↦ ⟨left, by rw [← Except.ok.inj h]⟩
    · rintro ⟨_, h⟩
      rw [← (Prod.mk.inj (Except.ok.inj h)).1]
      rfl

end Expr

/-! ### Paths -/

namespace Formula

variable (f : Formula) (board : Board) (anyOk : Bool)

/-- The paths at the origin of a formula that only displaces, if they are finite. -/
def displacements? : Option (List Path) :=
  match f.expr.evaluate (.ofPlace .zero board anyOk) with
  | .ok v => if f.expr.displaces && v.numbers.all Float.isFinite then v.toPaths? else none
  | .error _ => none

/-- The paths of a formula that does not use the coordinates. -/
def fixedPaths? : Option (List Path) :=
  if Steady f.expr.words then (f.relativePaths (.ofPlace .zero board anyOk)).toOption else none

variable {f board anyOk} {paths : List Path}

/-- A formula that only displaces gives at every place its paths at the origin, displaced by the
place. -/
theorem exists_relativePaths_of_displacements?
    (h : f.displacements? board anyOk = some paths) (place : Point) :
    ∃ paths', f.relativePaths (.ofPlace place board anyOk) = .ok paths' ∧
      List.Forall₂ (Path.Displaced place) paths paths' := by
  unfold displacements? at h
  split at h
  · next v hv =>
    split_ifs at h with hdisplaces
    obtain ⟨hdisplaces, hfine⟩ := Bool.and_eq_true_iff.1 hdisplaces
    obtain ⟨left, heval⟩ := Expr.evaluate_eq_ok_iff.1 hv
    obtain ⟨w, hw, hvw⟩ := Expr.follows_displaced hdisplaces (.ofPlace place board anyOk) _ _ _
      heval (List.all_eq_true.1 hfine)
    obtain ⟨s, hshape⟩ := Value.toPaths?_eq_some_iff.1 h
    obtain ⟨paths', hshape', hpaths⟩ := hvw.hasShape hshape
    refine ⟨paths', ?_, hpaths⟩
    rw [relativePaths, Expr.evaluate_eq_ok_iff.2 ⟨left, hw⟩]
    dsimp only
    rw [Value.toPaths?_eq_some_iff.2 ⟨s, hshape'⟩]
  · cases h

/-- A formula that does not use the coordinates gives the same paths at every place. -/
theorem relativePaths_of_fixedPaths? (h : f.fixedPaths? board anyOk = some paths) (place : Point) :
    f.relativePaths (.ofPlace place board anyOk) = .ok paths := by
  unfold fixedPaths? at h
  split_ifs at h with hsteady
  have horigin : f.relativePaths (.ofPlace .zero board anyOk) = .ok paths := by
    revert h
    cases f.relativePaths (.ofPlace .zero board anyOk) with
    | error e => exact nofun
    | ok paths' => exact fun h ↦ congrArg Except.ok (Option.some.inj h)
  rw [← horigin]
  unfold relativePaths Expr.evaluate
  rw [(Env.Displaces.ofPlace place board anyOk).eval_eq hsteady]

end Formula

end Waypoints
