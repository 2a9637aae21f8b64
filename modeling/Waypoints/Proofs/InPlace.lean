import Mathlib.Logic.Basic
/-!
# Operations in place

An `InPlace` operation changes a state step by step and may fail in between: the state then keeps
what was changed until then. An operation that only looks at its state for as long as it can fail is
a transaction: it makes all of its changes or none (`InPlace.Observes.transacts`). Two transactions
in a row need not be one, since the second may fail after the first has made its changes.
-/

set_option autoImplicit false
set_option relaxedAutoImplicit false

namespace Waypoints

/-- An operation that changes a state in place and may fail. -/
abbrev InPlace (ε σ α : Type) := ExceptT ε (StateM σ) α

namespace InPlace

variable {ε σ α β : Type}

/-- What an operation gives in a state, and the state that it leaves. -/
def apply (op : InPlace ε σ α) (s : σ) : Except ε α × σ :=
  (StateT.run (ExceptT.run op) s).run

/-- The operation looks at its state and leaves it as it is. -/
def Observes (op : InPlace ε σ α) (f : σ → Except ε α) : Prop :=
  ∀ s, op.apply s = (f s, s)

/-- The operation does what a function of the state says if that succeeds. Else it fails with the
same error, and leaves the state as it was. -/
structure Transacts (op : InPlace ε σ α) (f : σ → Except ε (σ × α)) : Prop where
  ok_iff : ∀ s s' a, op.apply s = (.ok a, s') ↔ f s = .ok (s', a)
  error_iff : ∀ s s' e, op.apply s = (.error e, s') ↔ f s = .error e ∧ s' = s

/-- What a transaction gives and leaves, from what its function says. -/
def settle (s : σ) : Except ε (σ × α) → Except ε α × σ
  | .ok (s', a) => (.ok a, s')
  | .error e => (.error e, s)

variable {op : InPlace ε σ α} {f : σ → Except ε α}

theorem transacts_of_settle {f : σ → Except ε (σ × α)} (h : ∀ s, op.apply s = settle s (f s)) :
    op.Transacts f where
  ok_iff s s' a := by
    rw [h]
    rcases f s with e | ⟨t, b⟩
    · constructor <;> exact fun h ↦ nomatch h
    · change (Except.ok b, t) = _ ↔ _
      rw [Prod.mk.injEq, Except.ok.injEq, Except.ok.injEq, Prod.mk.injEq, and_comm]
  error_iff s s' e := by
    rw [h]
    rcases f s with e' | ⟨t, b⟩
    · change (Except.error e', s) = _ ↔ _
      rw [Prod.mk.injEq, Except.error.injEq, Except.error.injEq, eq_comm (a := s)]
    · constructor
      · exact fun h ↦ nomatch h
      · exact fun h ↦ nomatch h.1

theorem Transacts.apply_eq {f : σ → Except ε (σ × α)} (h : op.Transacts f) (s : σ) :
    op.apply s = settle s (f s) := by
  rcases hf : f s with e | ⟨s', a⟩
  · exact (h.error_iff s s e).2 ⟨hf, rfl⟩
  · exact (h.ok_iff s s' a).2 hf

/-! ### Sequences -/

/-- A sequence goes on in the state that its first part leaves, unless that fails. -/
theorem apply_bind (op : InPlace ε σ α) (g : α → InPlace ε σ β) (s : σ) :
    (op >>= g).apply s = match op.apply s with
      | (.ok a, s') => (g a).apply s'
      | (.error e, s') => (.error e, s') := by
  unfold apply
  rw [ExceptT.run_bind, StateT.run_bind]
  rcases StateT.run (ExceptT.run op) s with ⟨e | a, s'⟩ <;> rfl

/-- What is made of the result does not change the state. -/
theorem apply_map (op : InPlace ε σ α) (f : α → β) (s : σ) :
    (do return f (← op) : InPlace ε σ β).apply s = (op.apply s).map (f <$> ·) id := by
  rw [apply_bind]
  rcases op.apply s with ⟨e | a, s'⟩ <;> rfl

/-- What depends on the state goes on with it. -/
theorem apply_get_bind (g : σ → InPlace ε σ β) (s : σ) : (get >>= g).apply s = (g s).apply s :=
  rfl

theorem observes_lift (x : Except ε α) : Observes (liftM x : InPlace ε σ α) fun _ ↦ x :=
  fun _ ↦ rfl

/-- What depends on the state may be looked up in it. -/
theorem observes_lookup (f : σ → Except ε α) :
    Observes (do f (← get) : InPlace ε σ α) f :=
  fun _ ↦ rfl

theorem Observes.bind {g : α → InPlace ε σ β} {f' : α → σ → Except ε β} (h : op.Observes f)
    (hg : ∀ a, (g a).Observes (f' a)) : (op >>= g).Observes fun s ↦ f s >>= (f' · s) := by
  intro s
  change _ = (f s >>= (f' · s), s)
  rw [apply_bind, h s]
  cases f s with
  | error e => rfl
  | ok a => exact hg a s

theorem Observes.mapM {g : α → InPlace ε σ β} {f : σ → α → Except ε β}
    (h : ∀ a, (g a).Observes (f · a)) (as : List α) :
    (as.mapM g).Observes fun s ↦ as.mapM (f s) := by
  induction as with
  | nil => exact fun _ ↦ rfl
  | cons a as ih =>
    simp only [List.mapM_cons]
    exact (h a).bind fun b ↦ ih.bind fun bs _ ↦ rfl

/-! ### Transactions -/

/-- A change that cannot fail. -/
theorem transacts_modify (f : σ → σ) (a : α) :
    Transacts (do modify f; return a : InPlace ε σ α) fun s ↦ .ok (f s, a) :=
  transacts_of_settle fun _ ↦ rfl

/-- What only looks at its state before a transaction. -/
theorem Observes.transacts {g : α → InPlace ε σ β} {f' : α → σ → Except ε (σ × β)}
    (h : op.Observes f) (hg : ∀ a, (g a).Transacts (f' a)) :
    (op >>= g).Transacts fun s ↦ f s >>= (f' · s) := by
  refine transacts_of_settle fun s ↦ ?_
  rw [apply_bind, h s]
  cases f s with
  | error e => rfl
  | ok a => exact (hg a).apply_eq s

end InPlace

end Waypoints
