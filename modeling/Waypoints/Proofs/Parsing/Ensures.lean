import Waypoints.Expr.Parser
import Waypoints.Proofs.Ensures
/-!
# What the steps of parsers ensure

The tokens ahead of a place, and for each step that the productions are made of, what it ensures.
-/

set_option autoImplicit false
set_option relaxedAutoImplicit false

namespace Waypoints

namespace Cursor

/-- The tokens ahead of a place. -/
def tokens (c : Cursor) : List Token :=
  c.ahead.map (·.token)

theorem peek?_eq (c : Cursor) : c.peek? = c.tokens.head? := by
  rw [peek?, tokens, List.head?_map]

@[simp] theorem tokens_advance (c : Cursor) : c.advance.tokens = c.tokens.tail := by
  rw [tokens, tokens, advance, List.map_tail]

@[simp] theorem depth_advance (c : Cursor) : c.advance.depth = c.depth := rfl

theorem tokens_eq_cons {c : Cursor} {t : Token} (h : c.peek? = some t) :
    c.tokens = t :: c.advance.tokens := by
  rw [peek?_eq] at h
  obtain ⟨ts, hts⟩ := List.head?_eq_some_iff.1 h
  rw [tokens_advance, hts, List.tail_cons]

/-- The same place with another number of open levels. -/
def withDepth (c : Cursor) (depth : Nat) : Cursor :=
  { c with depth := depth }

@[simp] theorem tokens_withDepth (c : Cursor) (depth : Nat) :
    (c.withDepth depth).tokens = c.tokens := rfl

@[simp] theorem depth_withDepth (c : Cursor) (depth : Nat) :
    (c.withDepth depth).depth = depth := rfl

end Cursor

namespace Parser

open StateT (ensures_bind ensures_ite)

section Steps

variable {α : Type} {c : Cursor} {ok : α → Cursor → Prop} {bad : ParseError → Prop}

theorem ensures_peek? {ok : Option Token → Cursor → Prop} :
    peek?.Ensures c ok bad ↔ ok c.peek? c :=
  Iff.rfl

theorem ensures_advance {ok : Unit → Cursor → Prop} :
    advance.Ensures c ok bad ↔ ok () c.advance :=
  Iff.rfl

theorem ensures_setDepth {ok : Unit → Cursor → Prop} {f : Cursor → Nat} :
    (modify fun c ↦ { c with depth := f c } : Parser Unit).Ensures c ok bad ↔
      ok () (c.withDepth (f c)) :=
  Iff.rfl

theorem ensures_eat {ok : Bool → Cursor → Prop} (m : Mark) :
    (eat m).Ensures c ok bad ↔
      if c.peek? = some (.mark m) then ok true c.advance else ok false c := by
  rw [eat, ensures_bind, ensures_peek?, ensures_ite]
  rfl

theorem ensures_expect {ok : Unit → Cursor → Prop} (m : Mark) :
    (expect m).Ensures c ok bad ↔
      if c.peek? = some (.mark m) then ok () c.advance
      else bad ⟨c.offset, .expected (some (.mark m)) c.peek?⟩ := by
  rw [expect, ensures_bind, ensures_eat]
  split <;> rfl

theorem ensures_expectEnd {ok : Unit → Cursor → Prop} :
    expectEnd.Ensures c ok bad ↔
      match c.peek? with
      | none => ok () c
      | some token => bad ⟨c.offset, .expected none (some token)⟩ := by
  rw [expectEnd, ensures_bind, ensures_peek?]
  cases c.peek? <;> rfl

theorem ensures_descend {ok : Unit → Cursor → Prop} :
    descend.Ensures c ok bad ↔
      if maxNesting < c.depth + 1 then bad ⟨c.offset, .tooDeep⟩
      else ok () (c.withDepth (c.depth + 1)) := by
  rw [descend, ensures_bind, ensures_setDepth, ensures_bind, StateT.ensures_get, ensures_ite]
  rfl

theorem ensures_nested (p : Parser α) :
    (nested p).Ensures c ok bad ↔
      if maxNesting < c.depth + 1 then bad ⟨c.offset, .tooDeep⟩
      else p.Ensures (c.withDepth (c.depth + 1))
        (fun a c' ↦ ok a (c'.withDepth (c'.depth - 1))) bad := by
  rw [nested, ensures_bind, ensures_descend]
  split
  · rfl
  · rw [ensures_bind]
    rfl

end Steps

end Parser

end Waypoints
