import Waypoints.Proofs.Number.Binary64
import Waypoints.Proofs.Parsing.Forms
/-!
# The numbers of accepted expressions

Every number in the tree of a phrase is one of its tokens, so that what holds of these holds of
those (`Phrase.everywhere`). The numbers among the tokens of a text are read off digits; every
number in an accepted expression is the one nearest to a decimal (`Expr.everywhere_of_parse`), and
so is no NaN (`Expr.isNaN_of_parse`).
-/

set_option autoImplicit false
set_option relaxedAutoImplicit false

namespace Waypoints

/-- The numbers in a tree satisfy a predicate. -/
def Expr.Literals (p : Float → Prop) (e : Expr) : Prop :=
  ∀ value, e.Contains (.number value) → p value

/-- A number that is written down is the one nearest to a decimal. -/
def IsDecimal (value : Float) : Prop :=
  ∃ d : Decimal, value = d.toFloat

/-- A number that is read at the front of a text is read off digits. -/
theorem Token.isDecimal_of_read? {cs : List Char} {r : Reading} {value : Float}
    (h : read? cs = some r) (hnumber : r.token = .number value) : IsDecimal value := by
  unfold read? at h
  split at h
  · obtain rfl := Option.some.inj h
    obtain rfl := Token.number.inj hnumber
    exact ⟨_, rfl⟩
  · split at h
    · obtain rfl := Option.some.inj h
      simp only [ofWord] at hnumber
      split at hnumber <;> cases hnumber
    · unfold readSymbol? at h
      obtain ⟨m, -, hm⟩ := List.exists_of_findSome?_eq_some h
      dsimp only at hm
      split at hm
      · obtain rfl := Option.some.inj hm
        cases hnumber
      · cases hm

theorem isDecimal_of_lexemes {offset : Nat} {cs : List Char} {ls : List Lexeme}
    (h : lexemes offset cs = .ok ls) {value : Float} (hvalue : .number value ∈ ls.map (·.token)) :
    IsDecimal value := by
  fun_induction lexemes offset cs generalizing ls with
  | case1 =>
    cases h
    cases hvalue
  | case2 offset c cs hblank ih => exact ih h hvalue
  | case3 => cases h
  | case4 offset c cs hblank r hread ih =>
    cases hlater : lexemes (offset + r.word.length) r.rest with
    | error fault =>
      rw [hlater] at h
      cases h
    | ok later =>
      rw [hlater] at h
      cases h
      rcases List.mem_cons.1 hvalue with hfirst | hrest
      · exact Token.isDecimal_of_read? hread hfirst.symm
      · exact ih hlater hrest

/-- All nodes of an accepted expression are of the form of nodes that are written down, with
numbers read off digits. -/
theorem Expr.everywhere_of_parse {text : String} {e : Expr} (h : parse text = .ok e) :
    e.Everywhere (HasForm IsDecimal) := by
  obtain ⟨ls, hls⟩ := lexemes_of_parse h
  obtain ⟨n, -, hphrase⟩ := phrase_of_parse hls h
  exact hphrase.everywhere fun value hvalue ↦ isDecimal_of_lexemes hls hvalue

/-- No number in an accepted expression is a NaN. -/
theorem Expr.isNaN_of_parse {text : String} {e : Expr} (h : parse text = .ok e) :
    e.Literals fun value ↦ value.isNaN = false := by
  intro value hvalue
  obtain ⟨d, rfl⟩ := everywhere_of_parse h _ hvalue
  exact d.hasSign_toFloat.isNaN_eq

end Waypoints
