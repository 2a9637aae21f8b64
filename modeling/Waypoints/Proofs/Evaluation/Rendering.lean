import Waypoints.Proofs.Evaluation.Poles
import Waypoints.Proofs.Lexing.Delimited
import Waypoints.Proofs.Lexing.Numerals
/-!
# Rendered values are read back

Every value is written as an expression (`Value.toExpr`): numbers as numerals, under a minus if they
have that sign, the wildcard as its name, and sequences item by item. The text of a value is parsed
as this expression (`parse_text`), as deep as the limit on nesting lets it, and the expression has
the value again (`eval_toExpr`) unless a truth value or an infinity is part of it, whose texts are
names of nothing. No part of it is paid for, so that the length of a value does not matter
(`text_reads_back`).
-/

set_option autoImplicit false
set_option relaxedAutoImplicit false

namespace Waypoints

open Float.Model (UnpackedFloat)
open Float.Model.UnpackedFloat (Sign)

/-! ### The expression of a value -/

/-- The expression that the magnitude of a number is written as. -/
def Number.magnitudeExpr (x : Float) : Expr :=
  if x.isFinite then .number x.abs else .name "inf"

/-- The expression that a number is written as. -/
def Number.toExpr (x : Float) : Expr :=
  if x.isNaN then .name "any"
  else
    match sign x with
    | .positive => magnitudeExpr x
    | .negative => .unary .minus (magnitudeExpr x)

namespace Value

mutual

/-- The expression that a value is written as. -/
def toExpr : Value → Expr
  | number value => Number.toExpr value
  | bool flag => .name (if flag then "true" else "false")
  | tuple items => .tuple (toExprs items)
  | list items => .list (toExprs items)

/-- The expressions that values are written as. -/
def toExprs : List Value → List Expr
  | [] => []
  | v :: vs => toExpr v :: toExprs vs

end

mutual

/-- How many sequences are nested in each other. -/
def nesting : Value → Nat
  | number _ => 0
  | bool _ => 0
  | tuple items => deepest items + 1
  | list items => deepest items + 1

/-- How many sequences are nested in each other in any of some values. -/
def deepest : List Value → Nat
  | [] => 0
  | v :: vs => max (nesting v) (deepest vs)

end

mutual

/-- A value without truth values and infinities. -/
def IsLiteral : Value → Prop
  | number value => value.isFinite ∨ value.isNaN
  | bool _ => False
  | tuple items => AreLiteral items
  | list items => AreLiteral items

/-- Values without truth values and infinities. -/
def AreLiteral : List Value → Prop
  | [] => True
  | v :: vs => IsLiteral v ∧ AreLiteral vs

end

end Value

/-! ### The text of a number -/

section Numbers

variable {x : Float}

/-- A number is written as a word of its magnitude after the mark of its sign. -/
theorem Number.exists_spelled_magnitude (hx : x.isNaN = false) :
    ∃ ts word, (literal x).toList = (signMark (sign x)).toList ++ word ∧ Spelled ts word ∧
      Phrase .factor ts (magnitudeExpr x) 0 := by
  by_cases hfinite : x.isFinite
  · obtain ⟨n, hn, hvalue, htext⟩ := exists_numeral hfinite
    refine ⟨_, _, htext, .number hn, ?_⟩
    rw [magnitudeExpr, if_pos hfinite, hvalue]
    exact .atom .number
  · obtain ⟨s, hs⟩ := exists_unpack_of_not_isFinite hx hfinite
    have hsign : sign x = s := by rw [sign, hs]
    refine ⟨_, _, ?_, .name (show Token.IsName "inf" by decide), ?_⟩
    · rw [literal_of_infinity hs, hsign, String.toList_append]
    · rw [magnitudeExpr, if_neg hfinite]
      exact .atom (.name (by decide))

theorem Number.exists_spelled_literal (x : Float) :
    ∃ ts n, Spelled ts (literal x).toList ∧ Phrase .factor ts (toExpr x) n ∧ n ≤ 1 := by
  by_cases hx : x.isNaN
  · rw [literal_of_isNaN hx, toExpr, if_pos hx]
    exact ⟨_, 0, .name (by decide), .atom (.name (by decide)), Nat.zero_le 1⟩
  · obtain ⟨ts, word, htext, hspelled, hphrase⟩ :=
      exists_spelled_magnitude (Bool.eq_false_iff.2 hx)
    rw [htext, toExpr, if_neg hx]
    cases sign x with
    | positive => exact ⟨ts, 0, hspelled, hphrase, Nat.zero_le 1⟩
    | negative =>
      have hminus : Spelled (.mark .minus :: ts) ("-".toList ++ ([] ++ word)) :=
        hspelled.mark (by decide) [] rfl
      exact ⟨_, 1, hminus, hphrase.sign .minus, le_refl 1⟩

end Numbers

/-! ### The text of a value -/

section Rows

variable {ts us : List Token} {cs ds : List Char}

/-- A text before a delimiter. -/
theorem Spelled.before (h : Spelled ts cs) {m : Mark}
    (hm : m ∈ [Mark.comma, .parenClose, .bracketClose]) :
    Spelled (ts ++ [.mark m]) (cs ++ m.spelling.toList) := by
  have hdelimiter : m ∈ Mark.solitary ∧ Delimited m.spelling.toList := by
    simp only [List.mem_cons, List.not_mem_nil, or_false] at hm
    rcases hm with rfl | rfl | rfl <;> exact ⟨by decide, delimited_cons (by decide) []⟩
  have hmark := Spelled.nil.mark hdelimiter.1 [] rfl
  rw [List.append_nil, List.append_nil] at hmark
  exact h.append hmark hdelimiter.2

theorem Spelled.inParens (h : Spelled ts cs) :
    Spelled (.mark .parenOpen :: (ts ++ [.mark .parenClose])) ('(' :: (cs ++ [')'])) :=
  (h.before (m := .parenClose) (by decide)).mark (m := .parenOpen) (by decide) [] rfl

theorem Spelled.inBrackets (h : Spelled ts cs) :
    Spelled (.mark .bracketOpen :: (ts ++ [.mark .bracketClose])) ('[' :: (cs ++ [']'])) :=
  (h.before (m := .bracketClose) (by decide)).mark (m := .bracketOpen) (by decide) [] rfl

/-- Two texts with a comma and a blank between them. -/
theorem Spelled.separated (h : Spelled ts cs) (h' : Spelled us ds) :
    Spelled (ts ++ .mark .comma :: us) (cs ++ ',' :: ' ' :: ds) :=
  h.append (h'.mark (m := .comma) (by decide) [' '] rfl) (delimited_cons (by decide) _)

end Rows

namespace Value

/-- The texts of values between commas. -/
def row (vs : List Value) : List Char :=
  (", ".intercalate (texts vs)).toList

theorem row_singleton (v : Value) : row [v] = v.text.toList := by
  rw [row, texts, texts, String.intercalate_singleton]

theorem row_cons_cons (v w : Value) (vs : List Value) :
    row (v :: w :: vs) = v.text.toList ++ ',' :: ' ' :: row (w :: vs) := by
  rw [row, row, texts, texts, String.intercalate_cons_cons, String.toList_append,
    String.toList_append, List.append_assoc]
  rfl

theorem toList_text_list (vs : List Value) : (list vs).text.toList = '[' :: (row vs ++ [']']) := by
  rw [text, String.toList_append, String.toList_append]
  rfl

theorem toList_text_tuple {vs : List Value} (h : vs.length ≠ 1) :
    (tuple vs).text.toList = '(' :: (row vs ++ [')']) := by
  rw [text, if_neg h, String.toList_append, String.toList_append]
  rfl

theorem toList_text_tuple_singleton (v : Value) :
    (tuple [v]).text.toList = '(' :: (v.text.toList ++ [',', ')']) := by
  have htext : (tuple [v]).text = "(" ++ ", ".intercalate (texts [v]) ++ ",)" := by
    simp only [text, List.length_singleton, if_true]
  rw [htext, String.toList_append, String.toList_append, ← row_singleton]
  rfl

/-- The text of a value consists of the tokens of its expression. -/
def Rendered (v : Value) : Prop :=
  ∃ ts n, Spelled ts v.text.toList ∧ Phrase .factor ts v.toExpr n ∧ n ≤ v.nesting + 1

/-- The texts of values between commas consist of the tokens of their expressions. -/
theorem exists_spelled_row {v : Value} {vs : List Value} (h : ∀ w ∈ v :: vs, w.Rendered) :
    ∃ ts n, Spelled ts (row (v :: vs)) ∧ Phrase .exprs ts (toExprs (v :: vs)) n ∧
      n ≤ deepest (v :: vs) + 2 := by
  induction vs generalizing v with
  | nil =>
    obtain ⟨ts, n, hspelled, hphrase, hn⟩ := List.forall_mem_singleton.1 h
    rw [row_singleton]
    refine ⟨ts, n + 1, hspelled, .last hphrase.expr_of_factor, ?_⟩
    rw [deepest, deepest]
    omega
  | cons w vs ih =>
    obtain ⟨⟨ts, m, hspelled, hphrase, hm⟩, hvs⟩ := List.forall_mem_cons.1 h
    obtain ⟨us, n, hrow, hphrases, hn⟩ := ih hvs
    rw [row_cons_cons]
    refine ⟨_, _, hspelled.separated hrow, .more hphrase.expr_of_factor hphrases, ?_⟩
    rw [deepest]
    omega

theorem rendered_tuple {vs : List Value} (h : ∀ v ∈ vs, v.Rendered) : (tuple vs).Rendered := by
  match vs with
  | [] =>
    rw [Rendered, toList_text_tuple (by decide)]
    exact ⟨_, 0, Spelled.nil.inParens, .atom .unit, Nat.zero_le _⟩
  | [v] =>
    obtain ⟨ts, n, hspelled, hphrase, hn⟩ := List.forall_mem_singleton.1 h
    have htuple := (hspelled.before (m := .comma) (by decide)).inParens
    rw [List.append_assoc, List.append_assoc] at htuple
    rw [Rendered, toList_text_tuple_singleton]
    refine ⟨_, n + 1, htuple, .atom (.single hphrase.expr_of_factor), ?_⟩
    rw [nesting, deepest, deepest]
    omega
  | v :: w :: vs =>
    obtain ⟨⟨ts, m, hspelled, hphrase, hm⟩, hvs⟩ := List.forall_mem_cons.1 h
    obtain ⟨us, n, hrow, hphrases, hn⟩ := exists_spelled_row hvs
    have htuple := (hspelled.separated hrow).inParens
    rw [List.append_assoc] at htuple
    rw [Rendered, toList_text_tuple (by simp), row_cons_cons]
    refine ⟨_, _, htuple, .atom (.tuple hphrase.expr_of_factor hphrases), ?_⟩
    rw [nesting, deepest]
    omega

theorem rendered_list {vs : List Value} (h : ∀ v ∈ vs, v.Rendered) : (list vs).Rendered := by
  rw [Rendered, toList_text_list]
  cases vs with
  | nil => exact ⟨_, 0, Spelled.nil.inBrackets, .atom .empty, Nat.zero_le _⟩
  | cons v vs =>
    obtain ⟨ts, n, hrow, hphrases, hn⟩ := exists_spelled_row h
    exact ⟨_, n, hrow.inBrackets, .atom (.list hphrases), hn⟩

mutual

theorem rendered : (v : Value) → v.Rendered
  | number value => Number.exists_spelled_literal value
  | bool flag => by
    rw [Rendered, text, toExpr]
    cases flag with
    | true => exact ⟨_, 0, .name (by decide), .atom (.name (by decide)), Nat.zero_le _⟩
    | false => exact ⟨_, 0, .name (by decide), .atom (.name (by decide)), Nat.zero_le _⟩
  | tuple items => rendered_tuple (forall_mem_rendered items)
  | list items => rendered_list (forall_mem_rendered items)

theorem forall_mem_rendered : (vs : List Value) → ∀ v ∈ vs, v.Rendered
  | [] => List.forall_mem_nil _
  | v :: vs => List.forall_mem_cons.2 ⟨rendered v, forall_mem_rendered vs⟩

end

/-- The text of a value is parsed as its expression.

Assumes: the nesting leaves a level for the whole and one for a sign inside. -/
theorem parse_text {v : Value} (h : v.nesting + 2 ≤ maxNesting) :
    Expr.parse v.text = .ok v.toExpr := by
  obtain ⟨ts, n, hspelled, hphrase, hn⟩ := v.rendered
  obtain ⟨ls, hls, rfl⟩ := hspelled.lexemes_ok
  rcases Expr.parse_of_phrase hls hphrase.expr_of_factor with ⟨hparse, -⟩ | ⟨-, hdeep⟩
  · exact hparse
  · omega

end Value

/-! ### The value of a text -/

section Values

variable {b : Bindings} {x : Float}

theorem wildcard_eq_of_isNaN (hx : x.isNaN) : wildcard = x :=
  Number.eq_of_unpack_eq (UnpackedFloat.isNaN_iff.1 hx).symm

theorem Number.eval_toExpr (hany : b.anyOk) (hx : x.isFinite ∨ x.isNaN) (n : Nat) :
    (toExpr x).eval (.ofBoard b) n = .ok (.number x, n) := by
  by_cases hnan : x.isNaN
  · have hfind : b.find "any" = .ok (.number x) := by
      rw [← wildcard_eq_of_isNaN hnan]
      simp [Bindings.find, hany]
    rw [toExpr, if_pos hnan]
    exact Expr.eval_ofBoard_name hfind n
  · have hfinite := hx.resolve_right hnan
    have hmagnitude : (magnitudeExpr x).eval (.ofBoard b) n = .ok (.number x.abs, n) := by
      rw [magnitudeExpr, if_pos hfinite, Expr.eval]
      rfl
    rw [toExpr, if_neg hnan]
    cases hsign : sign x with
    | positive => rwa [← eq_abs_of_sign hsign] at hmagnitude
    | negative =>
      have happly : UnaryOp.minus.apply (.number x.abs) = .ok (.number x) :=
        congrArg (fun y ↦ Except.ok (Value.number y)) (eq_neg_abs_of_sign hsign).symm
      dsimp only
      rw [Expr.eval, StateT.bind_of_ok hmagnitude, happly]
      rfl

namespace Value

mutual

/-- The expression of a value has the value, and nothing is paid for it. -/
theorem eval_toExpr (hany : b.anyOk) : (v : Value) → v.IsLiteral → ∀ n,
    v.toExpr.eval (.ofBoard b) n = .ok (v, n)
  | number _, hv, n => Number.eval_toExpr hany hv n
  | bool _, hv, _ => hv.elim
  | tuple items, hv, n => Expr.eval_tuple (evalAll_toExprs hany items hv n)
  | list items, hv, n => Expr.eval_list (evalAll_toExprs hany items hv n)

theorem evalAll_toExprs (hany : b.anyOk) : (vs : List Value) → AreLiteral vs → ∀ n,
    Expr.evalAll (toExprs vs) (.ofBoard b) n = .ok (vs, n)
  | [], _, _ => rfl
  | v :: vs, hvs, n =>
    Expr.evalAll_cons (eval_toExpr hany v hvs.1 n) (evalAll_toExprs hany vs hvs.2 n)

end

/-- The text of a value is accepted, and evaluates to the value again for any bindings that permit
the wildcard.

Assumes: no truth value and no infinity is part of the value, whose sequences are nested at most 62
deep. -/
theorem text_reads_back {v : Value} (hv : v.IsLiteral) (hnesting : v.nesting ≤ 62)
    (x y w h : Float) :
    ∃ e, Expr.parse v.text = .ok e ∧ e.evaluate ⟨x, y, w, h, true⟩ = .ok v := by
  refine ⟨v.toExpr, parse_text (Nat.add_le_add_right hnesting 2), ?_⟩
  change Prod.fst <$> v.toExpr.eval (.ofBoard _) maxValues = _
  rw [eval_toExpr rfl v hv]
  rfl

/-- `[(1, any), (-2.5,), (), [-0]]`. -/
theorem text_reads_back_mixed :
    let v := list [tuple [number 1, number wildcard], tuple [number (-2.5)], tuple [],
      list [number (-0)]]
    v.IsLiteral ∧ v.nesting ≤ 62 ∧
      ∃ e, Expr.parse v.text = .ok e ∧ e.evaluate ⟨0, 0, 8, 8, true⟩ = .ok v := by
  have hliteral : (list [tuple [number 1, number wildcard], tuple [number (-2.5)], tuple [],
      list [number (-0)]]).IsLiteral :=
    ⟨⟨.inl rfl, .inr rfl, trivial⟩, ⟨.inl rfl, trivial⟩, trivial, ⟨.inl rfl, trivial⟩, trivial⟩
  exact ⟨hliteral, by decide, text_reads_back hliteral (by decide) 0 0 8 8⟩

example : (list [tuple [number 1, number wildcard], tuple [number (-2.5)], tuple [],
    list [number (-0)]]).text = "[(1, any), (-2.5,), (), [-0]]" := by
  decide +kernel

end Value

end Values

end Waypoints
