import Waypoints.Proofs.Lexing.Splitting
import Waypoints.Proofs.Parsing.Balance
import Waypoints.Proofs.Parsing.Language
/-!
# Width is no depth

Since every parser closes the levels it opens, the items of a list open their levels one after
another and not inside each other. A text is an item if the list of it alone is accepted; then its
tokens are an expression of the grammar whose levels leave room for those of a list
(`isItem_of_parse`). Items between commas are phrases between commas, with no more levels than the
deepest of them (`exists_exprs`), so the list of any number of items is accepted
(`width_is_no_depth`).
-/

set_option autoImplicit false
set_option relaxedAutoImplicit false

namespace Waypoints

/-! ### Trees that only an atom has -/

/-- The trees that are made by no operator. -/
def Expr.IsAtomic : Expr → Prop
  | .unary _ _ | .binary _ _ _ | .logic _ _ _ | .compare _ _ | .conditional _ _ _ => False
  | _ => True

namespace Phrase

variable {r : Row} {ts us : List Token} {lhs rhs e joined : Expr} {n : Nat}

theorem not_isAtomic_join {mark : Mark} {join : Expr → Expr → Expr}
    (h : r.Joins mark join) : ¬ (join lhs rhs).IsAtomic := by
  cases h <;> exact not_false

/-- Operators after the first operand of a row join trees that no atom has. -/
theorem rest_of_isAtomic : {us : List Token} → {lhs joined : Expr} → {n : Nat} →
    Phrase (.rest r lhs) us joined n → joined.IsAtomic → us = [] ∧ joined = lhs ∧ n = 0
  | _, _, _, _, .restNil, _ => ⟨rfl, rfl, rfl⟩
  | _, _, _, _, .restCons hjoin _ hrest, hatomic => by
    obtain ⟨-, rfl, -⟩ := rest_of_isAtomic hrest hatomic
    exact absurd hatomic (not_isAtomic_join hjoin)

theorem operand_of_row (h : Phrase (.row r) ts e n) (he : e.IsAtomic) :
    Phrase (.operand r) ts e n := by
  cases h with
  | row hoperand hrest =>
    obtain ⟨rfl, rfl, rfl⟩ := rest_of_isAtomic hrest he
    rwa [List.append_nil, Nat.max_zero]

/-- An expression whose tree is made by no operator is an atom. -/
theorem atom_of_expr (h : Phrase .expr ts e n) (he : e.IsAtomic) :
    ∃ m, n = m + 1 ∧ Phrase .atom ts e m := by
  cases h with
  | conditional => cases he
  | @plain _ _ m hdisjunction =>
    refine ⟨m, rfl, ?_⟩
    cases operand_of_row hdisjunction he with
    | conjunction hconjunction =>
    cases operand_of_row hconjunction he with
    | inversion hinversion =>
    cases hinversion with
    | not => cases he
    | comparison hcomparison =>
    cases hcomparison with
    | compare => cases he
    | sum hsum =>
    cases operand_of_row hsum he with
    | term hterm =>
    cases operand_of_row hterm he with
    | factor hfactor =>
    cases hfactor with
    | sign => cases he
    | power => cases he
    | atom hatom => exact hatom

end Phrase

/-! ### The last token of a phrase -/

/-- The last of these tokens, if there are any, is no comma. -/
def EndsWithoutComma (ts : List Token) : Prop :=
  ts.getLast? ≠ some (.mark .comma)

theorem endsWithoutComma_nil : EndsWithoutComma [] := nofun

theorem EndsWithoutComma.append {ts us : List Token} (hts : EndsWithoutComma ts)
    (hus : EndsWithoutComma us) : EndsWithoutComma (ts ++ us) := by
  unfold EndsWithoutComma at hts hus ⊢
  rw [List.getLast?_append]
  cases hlast : us.getLast? with
  | none => exact hts
  | some t =>
    rw [hlast] at hus
    exact hus

theorem EndsWithoutComma.cons {ts : List Token} (hts : EndsWithoutComma ts) {t : Token}
    (ht : t ≠ .mark .comma) : EndsWithoutComma (t :: ts) := by
  have hlast : EndsWithoutComma [t] := fun h ↦ ht (Option.some.inj h)
  exact hlast.append hts

/-- Only between commas a comma may come last. -/
def Symbol.Ends : Symbol → List Token → Prop
  | exprs, _ => True
  | _, ts => EndsWithoutComma ts

/-- The last token of a phrase is no comma, unless the phrase is one between commas. -/
theorem Phrase.ends {s : Symbol} {ts : List Token} {t : s.Tree} {n : Nat} (h : Phrase s ts t n) :
    s.Ends ts := by
  have hmark {m : Mark} (hm : m ≠ .comma) : Token.mark m ≠ .mark .comma :=
    fun h ↦ hm (Token.mark.inj h)
  induction h with
  | plain _ ih => exact ih
  | conditional _ _ _ hvalue hcondition hotherwise =>
    have helse := EndsWithoutComma.cons hotherwise (hmark (m := .kwElse) nofun)
    exact hvalue.append ((hcondition.append helse).cons (hmark nofun))
  | row _ _ hfirst hrest => exact EndsWithoutComma.append hfirst hrest
  | restNil => exact endsWithoutComma_nil
  | @restCons r mark _ _ _ _ _ _ _ _ hjoin _ _ hrhs hrest =>
    refine EndsWithoutComma.cons (EndsWithoutComma.append hrhs hrest) (hmark ?_)
    rintro rfl
    cases hjoin
  | conjunction _ ih => exact ih
  | inversion _ ih => exact ih
  | term _ ih => exact ih
  | factor _ ih => exact ih
  | not _ ih => exact EndsWithoutComma.cons ih (hmark nofun)
  | comparison _ ih => exact ih
  | sum _ ih => exact ih
  | compare _ _ hfirst hlinks => exact EndsWithoutComma.append hfirst hlinks
  | linksNil => exact endsWithoutComma_nil
  | linksCons hop _ _ hoperand hmore =>
    refine EndsWithoutComma.cons (EndsWithoutComma.append hoperand hmore) (hmark ?_)
    rintro rfl
    cases hop
  | sign hsigns _ ih =>
    refine EndsWithoutComma.cons ih (hmark ?_)
    rintro rfl
    cases hsigns
  | atom _ ih => exact ih
  | power _ _ hbase hexponent =>
    exact EndsWithoutComma.append hbase (EndsWithoutComma.cons hexponent (hmark nofun))
  | number | name | range | unit | group | single | tuple | empty | list | comprehension =>
    simp [Symbol.Ends, EndsWithoutComma, List.getLast?_cons]
  | last | trailing | more => trivial
  | clausesNil => exact endsWithoutComma_nil
  | clausesCons _ _ hfirst hmore => exact EndsWithoutComma.append hfirst hmore
  | @clause loopVar _ _ _ _ _ _ _ _ _ hitems hfilters =>
    have hin := (EndsWithoutComma.append hitems hfilters).cons (hmark (m := .kwIn) nofun)
    have hvar := hin.cons (t := .name loopVar) nofun
    exact EndsWithoutComma.cons hvar (hmark nofun)
  | filtersNil => exact endsWithoutComma_nil
  | filtersCons _ _ hcondition hmore =>
    exact EndsWithoutComma.cons (EndsWithoutComma.append hcondition hmore) (hmark nofun)

/-- An expression before a comma is the only one between commas that ends with this comma and has a
single item. -/
theorem Phrase.expr_of_trailing {ts : List Token} {e : Expr} {n : Nat}
    (h : Phrase .exprs (ts ++ [.mark .comma]) [e] n) : Phrase .expr ts e n := by
  generalize htokens : ts ++ [.mark .comma] = us at h
  cases h with
  | last hexpr =>
    refine absurd ?_ hexpr.ends
    rw [← htokens, List.getLast?_concat]
  | trailing hexpr => rwa [List.append_cancel_right htokens]
  | more _ hitems => exact absurd rfl hitems.exprs_ne_nil

namespace Expr

open Waypoints.Parser

/-! ### Items -/

/-- The tokens of a text are an expression whose levels fit under the limit one level down. -/
def IsItem (text : String) (e : Expr) : Prop :=
  ∃ ts n, ReadsAs text.toList ts ∧ Phrase .expr ts e n ∧ n + 1 ≤ maxNesting

variable {text : String} {e : Expr}

/-- What is accepted has the tokens of an expression whose levels fit under the limit. -/
theorem parse_eq_ok_iff : parse text = .ok e ↔
    ∃ ts n, ReadsAs text.toList ts ∧ Phrase .expr ts e n ∧ n ≤ maxNesting := by
  constructor
  · intro h
    obtain ⟨ls, hls⟩ := lexemes_of_parse h
    obtain ⟨n, hn, hphrase⟩ := phrase_of_parse hls h
    exact ⟨_, n, readsAs_of_lexemes hls, hphrase, hn⟩
  · rintro ⟨ts, n, hts, hphrase, hn⟩
    obtain ⟨ls, hls, rfl⟩ := hts 0
    exact ((parse_iff_phrase hls).1 e).2 ⟨n, hn, hphrase⟩

/-- The tokens of a text in brackets. -/
theorem readsAs_brackets_iff {inner : List Char} {ts : List Token} (hinner : Delimited inner) :
    ReadsAs (Mark.bracketOpen.spelling.toList ++ (text.toList ++ inner)) ts ↔
      ∃ us vs, ts = .mark .bracketOpen :: (us ++ vs) ∧ ReadsAs text.toList us ∧
        ReadsAs inner vs := by
  rw [readsAs_mark_iff (by decide)]
  constructor
  · rintro ⟨ws, rfl, hws⟩
    obtain ⟨us, vs, rfl, hus, hvs⟩ := (readsAs_append_iff hinner).1 hws
    exact ⟨us, vs, rfl, hus, hvs⟩
  · rintro ⟨us, vs, rfl, hus, hvs⟩
    exact ⟨_, rfl, (readsAs_append_iff hinner).2 ⟨us, vs, rfl, hus, hvs⟩⟩

theorem readsAs_close : ReadsAs [']'] [.mark .bracketClose] :=
  (readsAs_mark_iff (m := .bracketClose) (by decide)).2 ⟨[], rfl, readsAs_nil⟩

theorem readsAs_commaClose : ReadsAs [',', ']'] [.mark .comma, .mark .bracketClose] :=
  (readsAs_mark_iff (m := .comma) (by decide)).2 ⟨_, rfl, readsAs_close⟩

/-- A text is an item if the list of it alone is accepted. -/
theorem isItem_of_parse (h : parse ("[" ++ text ++ ",]") = .ok (.list [e])) : IsItem text e := by
  obtain ⟨ts, n, hts, hphrase, hn⟩ := parse_eq_ok_iff.1 h
  have htext : ("[" ++ text ++ ",]").toList =
      Mark.bracketOpen.spelling.toList ++ (text.toList ++ [',', ']']) := by
    rw [String.toList_append, String.toList_append, List.append_assoc]
    rfl
  rw [htext, readsAs_brackets_iff (delimited_cons (by decide) _)] at hts
  obtain ⟨us, vs, rfl, hus, hvs⟩ := hts
  obtain rfl := hvs.unique readsAs_commaClose
  obtain ⟨m, rfl, hatom⟩ := hphrase.atom_of_expr trivial
  refine ⟨us, m, hus, ?_, hn⟩
  generalize htokens : Token.mark .bracketOpen :: (us ++ [.mark .comma, .mark .bracketClose]) = ws
    at hatom
  cases hatom with
  | group => cases htokens
  | @list ts _ _ hexprs =>
    have hclose : us ++ [.mark .comma] ++ [.mark .bracketClose] = ts ++ [.mark .bracketClose] := by
      rw [List.append_assoc]
      exact (List.cons.inj htokens).2
    rw [← List.append_cancel_right hclose] at hexprs
    exact hexprs.expr_of_trailing

/-- Items between commas are as deep as the deepest of them. -/
theorem exists_exprs {items : List (String × Expr)} (hne : items ≠ [])
    (h : ∀ item ∈ items, IsItem item.1 item.2) :
    ∃ ts n, ReadsAs (", ".intercalate (items.map (·.1))).toList ts ∧
      Phrase .exprs ts (items.map (·.2)) n ∧ n + 1 ≤ maxNesting := by
  induction items with
  | nil => exact absurd rfl hne
  | cons item items ih =>
    obtain ⟨hitem, hitems⟩ := List.forall_mem_cons.1 h
    obtain ⟨ts, m, hts, hexpr, hm⟩ := hitem
    cases items with
    | nil =>
      rw [List.map_singleton, String.intercalate_singleton]
      exact ⟨ts, m, hts, .last hexpr, hm⟩
    | cons next more =>
      obtain ⟨us, n, hus, hexprs, hn⟩ := ih (List.cons_ne_nil _ _) hitems
      refine ⟨ts ++ .mark .comma :: us, max m n, ?_, .more hexpr hexprs, ?_⟩
      · rw [List.map_cons, List.map_cons, String.intercalate_cons_cons, String.toList_append,
          String.toList_append, List.append_assoc]
        have hcomma : ReadsAs (Mark.comma.spelling.toList ++ ([' '] ++ _)) (.mark .comma :: us) :=
          (readsAs_mark_iff (by decide)).2 ⟨us, rfl, hus.gap rfl⟩
        exact (readsAs_append_iff (delimited_cons (by decide) _)).2 ⟨ts, _, rfl, hts, hcomma⟩
      · omega

/-- Every parser of the grammar that reads something leaves as many levels open as there were. So
the list of texts, each of which is accepted as the one item of a list, is accepted as the list of
their trees, however many there are. -/
theorem width_is_no_depth :
    (∀ n, BalancedAt n) ∧
      ∀ items : List (String × Expr), items ≠ [] →
        (∀ item ∈ items, parse ("[" ++ item.1 ++ ",]") = .ok (.list [item.2])) →
        parse ("[" ++ ", ".intercalate (items.map (·.1)) ++ "]") =
          .ok (.list (items.map (·.2))) := by
  refine ⟨balancedAt, fun items hne h ↦ ?_⟩
  obtain ⟨ts, n, hts, hexprs, hn⟩ :=
    exists_exprs hne fun item hitem ↦ isItem_of_parse (h item hitem)
  refine parse_eq_ok_iff.2 ⟨_, n + 1, ?_, (Phrase.list hexprs).expr_of_atom, hn⟩
  rw [String.toList_append, String.toList_append, List.append_assoc]
  exact (readsAs_brackets_iff (delimited_cons (by decide) _)).2 ⟨ts, _, rfl, hts, readsAs_close⟩

/-- Two items, the first of which opens levels of its own. -/
theorem width_is_no_depth_pair :
    parse "[[x],]" = .ok (.list [.list [.name "x"]]) ∧
      parse "[x or y,]" = .ok (.list [.logic .or (.name "x") (.name "y")]) ∧
      parse "[[x], x or y]" =
        .ok (.list [.list [.name "x"], .logic .or (.name "x") (.name "y")]) := by
  have hfirst : parse "[[x],]" = .ok (.list [.list [.name "x"]]) := by
    have hls : lexemes 0 "[[x],]".toList = .ok [⟨.mark .bracketOpen, 0⟩, ⟨.mark .bracketOpen, 1⟩,
        ⟨.name "x", 2⟩, ⟨.mark .bracketClose, 3⟩, ⟨.mark .comma, 4⟩, ⟨.mark .bracketClose, 5⟩] := by
      decide +kernel
    rw [parse, hls]
    rfl
  have hsecond : parse "[x or y,]" = .ok (.list [.logic .or (.name "x") (.name "y")]) := by
    have hls : lexemes 0 "[x or y,]".toList = .ok [⟨.mark .bracketOpen, 0⟩, ⟨.name "x", 1⟩,
        ⟨.mark .kwOr, 3⟩, ⟨.name "y", 6⟩, ⟨.mark .comma, 7⟩, ⟨.mark .bracketClose, 8⟩] := by
      decide +kernel
    rw [parse, hls]
    rfl
  refine ⟨hfirst, hsecond, ?_⟩
  have hitems := width_is_no_depth.2 [("[x]", .list [.name "x"]),
    ("x or y", .logic .or (.name "x") (.name "y"))] (List.cons_ne_nil _ _)
  exact hitems (List.forall_mem_cons.2 ⟨hfirst, List.forall_mem_singleton.2 hsecond⟩)

end Expr

end Waypoints
