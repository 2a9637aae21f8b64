import Waypoints.Proofs.Evaluation.Poles
/-!
# Expressions without powers

No construct but a power tells 0 from -0. So an expression without a power in its tree
(`Expr.UsesPower`) goes the same way for bindings that are the same up to the signs of zeros, and
ends alike (`Expr.signOfZero_unobservable`). This is what makes it harmless that a mirrored axis
turns the coordinate 0 into -0.
-/

set_option autoImplicit false
set_option relaxedAutoImplicit false

namespace Waypoints

open Number (Same)

/-- There is a power in a tree. -/
def Expr.UsesPower (e : Expr) : Prop :=
  ∃ base exponent, e.Contains (.binary .pow base exponent)

/-- A run that comes to a pole is that of an expression with a power. -/
theorem Visits.usesPower {p q : Place} (h : Visits p q) (hpole : q.IsPole) :
    p.expr.UsesPower := by
  obtain ⟨base, exponent, -, -, -, -, -, -, hexpr, -⟩ := hpole
  exact ⟨base, exponent, hexpr ▸ h.contains⟩

namespace Expr

variable {e : Expr} {b b' : Bindings}

/-- The sign of a zero among the bindings is unobservable without powers: both evaluations fail with
the same fault and so with errors of one class, or both have values of one structure with the same
truth values. The numbers in either are the same up to the signs of zeros. -/
theorem signOfZero_unobservable (hpower : ¬e.UsesPower) (hb : b.Related Same b') :
    Except.Agrees (fun _ ↦ False)
      (fun f f' ↦ f.Related Same f' ∧ f.errorClass = f'.errorClass) (Value.Related Same)
      (e.evaluate b) (e.evaluate b') := by
  have hsite : (Comparison.signless b b').sites (.start e b) :=
    fun q hvisits hpole ↦ hpower (hvisits.usesPower hpole)
  have houtcome := (Comparison.signless_lawful hb).agree_evaluate rfl hsite
  exact houtcome.mono (fun _ h ↦ h) (fun _ _ h ↦ ⟨h, h.errorClass_eq⟩) fun _ _ h ↦ h

theorem not_usesPower_of_children (hne : ∀ base exponent, e ≠ .binary .pow base exponent)
    (h : ∀ c ∈ e.children, ¬c.UsesPower) : ¬e.UsesPower := by
  rintro ⟨base, exponent, hcontains⟩
  rcases contains_iff.1 hcontains with rfl | ⟨c, hc, hnode⟩
  · exact hne base exponent rfl
  · exact h c hc ⟨base, exponent, hnode⟩

theorem not_usesPower_name (word : String) : ¬(name word).UsesPower :=
  not_usesPower_of_children nofun (List.forall_mem_nil _)

/-- `-x // (x - w)`, where `x` is 0 for one side and -0 for the other. -/
theorem signOfZero_unobservable_quotient :
    let e := binary .floorDiv (unary .minus (name "x")) (binary .sub (name "x") (name "w"))
    let b : Bindings := ⟨0, 3, 8, 8, false⟩
    let b' : Bindings := ⟨-0, 3, 8, 8, false⟩
    ¬e.UsesPower ∧ b.Related Same b' ∧
      Except.Agrees (fun _ ↦ False)
        (fun f f' ↦ f.Related Same f' ∧ f.errorClass = f'.errorClass) (Value.Related Same)
        (e.evaluate b) (e.evaluate b') := by
  have hx := not_usesPower_name "x"
  have hminus := not_usesPower_of_children (e := unary .minus (name "x")) nofun
    (List.forall_mem_singleton.2 hx)
  have hsub := not_usesPower_of_children (e := binary .sub (name "x") (name "w")) nofun
    (List.forall_mem_cons.2 ⟨hx, List.forall_mem_singleton.2 (not_usesPower_name "w")⟩)
  have hpower := not_usesPower_of_children (e := binary .floorDiv _ _) nofun
    (List.forall_mem_cons.2 ⟨hminus, List.forall_mem_singleton.2 hsub⟩)
  have hb : Bindings.Related Same ⟨0, 3, 8, 8, false⟩ ⟨-0, 3, 8, 8, false⟩ :=
    ⟨.of_beq (by decide), .refl 3, .refl 8, .refl 8, rfl⟩
  exact ⟨hpower, hb, signOfZero_unobservable hpower hb⟩

end Expr

end Waypoints
