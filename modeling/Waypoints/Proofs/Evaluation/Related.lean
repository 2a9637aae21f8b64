import Waypoints.Expr.Fault
import Waypoints.Proofs.Agreement
import Waypoints.Number.Whole
/-!
# Related values

A relation of numbers carries over to values of the same structure with related numbers
(`Value.Related`), to the faults that show such values (`EvalFault.Related`), and to points
(`Point.Related`). Two related values are read alike as numbers, as sequences and as paths.
-/

set_option autoImplicit false
set_option relaxedAutoImplicit false

namespace Waypoints

/-! ### Values -/

mutual

/-- Values of the same structure, with related numbers. -/
inductive Value.Related (r : Float → Float → Prop) : Value → Value → Prop
  | number {a b : Float} : r a b → Value.Related r (.number a) (.number b)
  | bool (flag : Bool) : Value.Related r (.bool flag) (.bool flag)
  | tuple {as bs : List Value} :
      Value.RelatedAll r as bs → Value.Related r (.tuple as) (.tuple bs)
  | list {as bs : List Value} :
      Value.RelatedAll r as bs → Value.Related r (.list as) (.list bs)

/-- Rows of values that are related one by one. -/
inductive Value.RelatedAll (r : Float → Float → Prop) : List Value → List Value → Prop
  | nil : Value.RelatedAll r [] []
  | cons {a b : Value} {as bs : List Value} :
      Value.Related r a b → Value.RelatedAll r as bs → Value.RelatedAll r (a :: as) (b :: bs)

end

namespace Value

variable {r : Float → Float → Prop} {v v' w w' : Value}

theorem relatedAll_iff {as bs : List Value} :
    RelatedAll r as bs ↔ List.Forall₂ (Related r) as bs := by
  constructor
  · intro h
    induction as generalizing bs with
    | nil =>
      cases h
      exact .nil
    | cons a as ih =>
      cases h with
      | cons hab hall => exact .cons hab (ih hall)
  · intro h
    induction h with
    | nil => exact .nil
    | cons hab _ ih => exact .cons hab ih

theorem RelatedAll.append {as bs cs ds : List Value} (h : RelatedAll r as bs)
    (h' : RelatedAll r cs ds) : RelatedAll r (as ++ cs) (bs ++ ds) := by
  rw [relatedAll_iff] at h h' ⊢
  exact List.rel_append h h'

theorem RelatedAll.isEmpty_eq {as bs : List Value} (h : RelatedAll r as bs) :
    as.isEmpty = bs.isEmpty := by
  cases h <;> rfl

theorem Related.kind_eq (h : Related r v w) : v.kind = w.kind := by
  cases h <;> rfl

mutual

/-- Related values are built from as many values. -/
theorem Related.weight_eq {v w : Value} : Related r v w → v.weight = w.weight
  | .number _ => rfl
  | .bool _ => rfl
  | .tuple h => congrArg (· + 1) h.totalWeight_eq
  | .list h => congrArg (· + 1) h.totalWeight_eq

theorem RelatedAll.totalWeight_eq {as bs : List Value} :
    RelatedAll r as bs → totalWeight as = totalWeight bs
  | .nil => rfl
  | .cons h hall => congrArg₂ (· + ·) h.weight_eq hall.totalWeight_eq

end

mutual

theorem Related.mono {r' : Float → Float → Prop} {v w : Value} (hr : ∀ a b, r a b → r' a b) :
    Related r v w → Related r' v w
  | .number h => .number (hr _ _ h)
  | .bool flag => .bool flag
  | .tuple h => .tuple (h.mono hr)
  | .list h => .list (h.mono hr)

theorem RelatedAll.mono {r' : Float → Float → Prop} {as bs : List Value}
    (hr : ∀ a b, r a b → r' a b) : RelatedAll r as bs → RelatedAll r' as bs
  | .nil => .nil
  | .cons h hall => .cons (h.mono hr) (hall.mono hr)

end

mutual

/-- Values that are related by a relation of equal numbers are equal. -/
theorem Related.eq {v w : Value} (hr : ∀ a b, r a b → a = b) : Related r v w → v = w
  | .number h => congrArg number (hr _ _ h)
  | .bool _ => rfl
  | .tuple h => congrArg tuple (h.eq hr)
  | .list h => congrArg list (h.eq hr)

theorem RelatedAll.eq {as bs : List Value} (hr : ∀ a b, r a b → a = b) :
    RelatedAll r as bs → as = bs
  | .nil => rfl
  | .cons h hall => congrArg₂ List.cons (h.eq hr) (hall.eq hr)

end

mutual

/-- The numbers in a value, at any depth. -/
def numbers : Value → List Float
  | number value => [value]
  | bool _ => []
  | tuple items => allNumbers items
  | list items => allNumbers items

/-- The numbers in the values of a row. -/
def allNumbers : List Value → List Float
  | [] => []
  | v :: vs => numbers v ++ allNumbers vs

end

mutual

/-- What the relation says of its left numbers holds of the numbers in the left value. -/
theorem Related.forall_numbers {p : Float → Prop} {v w : Value} (hr : ∀ a b, r a b → p a) :
    Related r v w → ∀ x ∈ v.numbers, p x
  | .number h => List.forall_mem_singleton.2 (hr _ _ h)
  | .bool _ => List.forall_mem_nil _
  | .tuple h => h.forall_allNumbers hr
  | .list h => h.forall_allNumbers hr

theorem RelatedAll.forall_allNumbers {p : Float → Prop} {as bs : List Value}
    (hr : ∀ a b, r a b → p a) : RelatedAll r as bs → ∀ x ∈ allNumbers as, p x
  | .nil => List.forall_mem_nil _
  | .cons h hall => List.forall_mem_append.2 ⟨h.forall_numbers hr, hall.forall_allNumbers hr⟩

end

/-! ### Readings -/

theorem Related.items? (h : Related r v w) : Option.Rel (RelatedAll r) v.items? w.items? := by
  cases h with
  | number _ => exact .none
  | bool _ => exact .none
  | tuple h => exact .some h
  | list h => exact .some h

/-- Related values are numbers or not alike. Assumes: the relation takes the numbers of the truth
values to themselves. -/
theorem Related.toNumber? (hzero : r 0 0) (hone : r 1 1) (h : Related r v w) :
    Option.Rel r v.toNumber? w.toNumber? := by
  cases h with
  | number h => exact .some h
  | bool flag =>
    cases flag
    · exact .some hzero
    · exact .some hone
  | tuple _ => exact .none
  | list _ => exact .none

theorem Related.isTruthy_eq (hr : ∀ a b, r a b → (a == 0) = (b == 0)) (h : Related r v w) :
    v.isTruthy = w.isTruthy := by
  cases h with
  | number h => exact congrArg not (hr _ _ h)
  | bool _ => rfl
  | tuple h => exact congrArg not h.isEmpty_eq
  | list h => exact congrArg not h.isEmpty_eq

end Value

/-! ### Points and paths -/

/-- Points with related components. -/
def Point.Related (r : Float → Float → Prop) (p q : Point) : Prop :=
  r p.x q.x ∧ r p.y q.y

/-- Paths of equal length, with related points. -/
abbrev Path.Related (r : Float → Float → Prop) : Path → Path → Prop :=
  List.Forall₂ (Point.Related r)

namespace Value

variable {r : Float → Float → Prop} {v w : Value}

theorem Related.toPoint? (h : Related r v w) :
    Option.Rel (Point.Related r) v.toPoint? w.toPoint? := by
  unfold Value.toPoint?
  have hitems := h.items?
  revert hitems
  generalize v.items? = xs
  generalize w.items? = ys
  rintro (⟨_ | ⟨hx, _ | ⟨hy, _ | ⟨_, _⟩⟩⟩⟩ | _)
  · exact .none
  · cases hx <;> exact .none
  · cases hx with
    | number hx =>
      cases hy with
      | number hy => exact .some ⟨hx, hy⟩
      | _ => exact .none
    | _ => cases hy <;> exact .none
  · cases hx <;> cases hy <;> exact .none
  · exact .none

theorem RelatedAll.pathOf? {as bs : List Value} (h : RelatedAll r as bs) :
    Option.Rel (Path.Related r) (pathOf? as) (pathOf? bs) := by
  unfold Value.pathOf?
  rw [h.isEmpty_eq]
  split
  · exact .none
  · exact .mapM (relatedAll_iff.1 h) fun _ _ hab ↦ hab.toPoint?

/-- Related values have related paths. -/
theorem Related.toPaths? (h : Related r v w) :
    Option.Rel (List.Forall₂ (Path.Related r)) v.toPaths? w.toPaths? := by
  unfold Value.toPaths?
  have hpoint := h.toPoint?
  revert hpoint
  generalize v.toPoint? = p
  generalize w.toPoint? = q
  rintro (hpq | _)
  · exact .some (.cons (.cons hpq .nil) .nil)
  · refine h.items?.bind fun as bs hall ↦ ?_
    have hpath := hall.pathOf?
    revert hpath
    generalize Value.pathOf? as = path
    generalize Value.pathOf? bs = path'
    rintro (hpath | _)
    · exact .some (.cons hpath .nil)
    · dsimp only
      rw [hall.isEmpty_eq]
      split
      · exact .none
      · refine .mapM (relatedAll_iff.1 hall) fun _ _ hab ↦ ?_
        exact hab.items?.bind fun _ _ hrow ↦ hrow.pathOf?

end Value

/-! ### Faults -/

/-- The same fault, with related numbers in what it shows. -/
inductive EvalFault.Related (r : Float → Float → Prop) : EvalFault → EvalFault → Prop
  | refl (fault : EvalFault) : EvalFault.Related r fault fault
  | argument {v w : Value} :
      v.Related r w → EvalFault.Related r (.rangeNeedsIntegers v) (.rangeNeedsIntegers w)
  | operands (op : BinaryOp) {a a' b b' : Float} :
      r a a' → r b b' → EvalFault.Related r (.notANumber op a b) (.notANumber op a' b')

namespace EvalFault.Related

variable {r : Float → Float → Prop} {fault fault' : EvalFault}

theorem errorClass_eq (h : EvalFault.Related r fault fault') :
    fault.errorClass = fault'.errorClass := by
  cases h <;> rfl

theorem mono {r' : Float → Float → Prop} (hr : ∀ a b, r a b → r' a b)
    (h : EvalFault.Related r fault fault') : EvalFault.Related r' fault fault' := by
  cases h with
  | refl => exact .refl fault
  | argument h => exact .argument (h.mono hr)
  | operands op ha hb => exact .operands op (hr _ _ ha) (hr _ _ hb)

theorem eq (hr : ∀ a b, r a b → a = b) (h : EvalFault.Related r fault fault') :
    fault = fault' := by
  cases h with
  | refl => rfl
  | argument h => rw [h.eq hr]
  | operands op ha hb => rw [hr _ _ ha, hr _ _ hb]

end EvalFault.Related

/-- The same error of the same expression, with related numbers in what it shows. -/
inductive ExprError.Related (r : Float → Float → Prop) : ExprError → ExprError → Prop
  | failed (source : String) {fault fault' : EvalFault} :
      fault.Related r fault' → ExprError.Related r ⟨source, .failed fault⟩ ⟨source, .failed fault'⟩
  | misshapen (source : String) {v w : Value} :
      v.Related r w → ExprError.Related r ⟨source, .misshapen v⟩ ⟨source, .misshapen w⟩

theorem ExprError.Related.mono {r r' : Float → Float → Prop} {e e' : ExprError}
    (hr : ∀ a b, r a b → r' a b) (h : e.Related r e') : e.Related r' e' := by
  cases h with
  | failed source h => exact .failed source (h.mono hr)
  | misshapen source h => exact .misshapen source (h.mono hr)

theorem ExprError.Related.errorClass_eq {r : Float → Float → Prop} {e e' : ExprError}
    (h : e.Related r e') : e.errorClass = e'.errorClass := by
  cases h with
  | failed source h => exact h.errorClass_eq
  | misshapen => rfl

end Waypoints
