import Mathlib.Data.List.Forall2
import Mathlib.Data.Option.Basic
/-!
# Outcomes that agree

`Except.Agrees` compares the outcomes of two computations: the results are related if both succeed,
the errors if both fail, and a failure of the first may be excused whatever the second does. The
second never fails where the first succeeds. `Agrees.bind` and `Agrees.mapM` carry such a comparison
through a computation in step with another.
-/

set_option autoImplicit false
set_option relaxedAutoImplicit false

/-! ### Lists -/

/-- Maps that take related elements to one element take related lists to one list. -/
theorem List.Forall₂.map_eq_map {α β γ : Type} {r : α → β → Prop} {as : List α} {bs : List β}
    {f : α → γ} {g : β → γ} (h : Forall₂ r as bs) (hfg : ∀ a b, r a b → f a = g b) :
    as.map f = bs.map g := by
  induction h with
  | nil => rfl
  | cons hab _ ih => rw [map_cons, map_cons, hfg _ _ hab, ih]

/-- Lists with one image under two maps have one image element by element. -/
theorem List.forall₂_of_map_eq_map {α β γ : Type} {as : List α} {bs : List β} {f : α → γ}
    {g : β → γ} (h : as.map f = bs.map g) : Forall₂ (fun a b ↦ f a = g b) as bs :=
  forall₂_map_left_iff.1 (forall₂_map_right_iff.1 (forall₂_eq_eq_eq ▸ h))

/-- Every element of the second of two related lists is related to one of the first. -/
theorem List.Forall₂.exists_of_mem_right {α β : Type} {r : α → β → Prop} {as : List α} {bs : List β}
    (h : Forall₂ r as bs) {b : β} (hb : b ∈ bs) : ∃ a ∈ as, r a b := by
  induction h with
  | nil => cases hb
  | cons hab _ ih =>
    rcases List.mem_cons.1 hb with rfl | hb
    · exact ⟨_, List.mem_cons_self, hab⟩
    · obtain ⟨a, ha, hab⟩ := ih hb
      exact ⟨a, List.mem_cons_of_mem _ ha, hab⟩

/-! ### Options -/

namespace Option

variable {α β γ δ : Type} {r : α → β → Prop} {s : γ → δ → Prop}

theorem Rel.bind {x : Option α} {y : Option β} {f : α → Option γ} {g : β → Option δ}
    (h : Rel r x y) (hf : ∀ a b, r a b → Rel s (f a) (g b)) : Rel s (x.bind f) (y.bind g) := by
  cases h with
  | some hab => exact hf _ _ hab
  | none => exact .none

theorem Rel.mapM {as : List α} {bs : List β} {f : α → Option γ} {g : β → Option δ}
    (h : List.Forall₂ r as bs) (hf : ∀ a b, r a b → Rel s (f a) (g b)) :
    Rel (List.Forall₂ s) (as.mapM f) (bs.mapM g) := by
  induction h with
  | nil => exact .some .nil
  | cons hab _ ih =>
    rw [List.mapM_cons, List.mapM_cons]
    exact (hf _ _ hab).bind fun c d hcd ↦ ih.bind fun cs ds hcsds ↦ .some (.cons hcd hcsds)

end Option

/-! ### Outcomes -/

namespace Except

variable {ε ε' α β γ δ : Type}

/-- A computation that succeeds has a first step that succeeds. -/
theorem exists_of_bind_eq_ok {x : Except ε α} {f : α → Except ε β} {b : β}
    (h : x >>= f = .ok b) : ∃ a, x = .ok a ∧ f a = .ok b := by
  rcases x with e | a
  · cases h
  · exact ⟨a, rfl, h⟩

/-- A row succeeds exactly if each of its steps does. -/
theorem mapM_eq_ok_iff {f : α → Except ε β} {as : List α} {bs : List β} :
    as.mapM f = .ok bs ↔ List.Forall₂ (fun a b ↦ f a = .ok b) as bs := by
  constructor
  · intro h
    induction as generalizing bs with
    | nil =>
      cases h
      exact .nil
    | cons a as ih =>
      rw [List.mapM_cons] at h
      obtain ⟨b, hb, h⟩ := exists_of_bind_eq_ok h
      obtain ⟨rest, hrest, h⟩ := exists_of_bind_eq_ok h
      cases h
      exact .cons hb (ih hrest)
  · intro h
    induction h with
    | nil => rfl
    | cons hab _ ih =>
      rw [List.mapM_cons, hab, ih]
      rfl

/-- A row that fails does so at one of its steps. -/
theorem exists_of_mapM_eq_error {f : α → Except ε β} {as : List α} {e : ε}
    (h : as.mapM f = .error e) : ∃ a ∈ as, f a = .error e := by
  induction as with
  | nil => cases h
  | cons a as ih =>
    rw [List.mapM_cons] at h
    cases ha : f a with
    | error e' =>
      rw [ha] at h
      cases h
      exact ⟨a, List.mem_cons_self, ha⟩
    | ok b =>
      rw [ha] at h
      cases has : as.mapM f with
      | error e' =>
        obtain rfl : e' = e := by
          rw [has] at h
          cases h
          rfl
        obtain ⟨a', hmem, ha'⟩ := ih has
        exact ⟨a', List.mem_cons_of_mem _ hmem, ha'⟩
      | ok bs =>
        rw [has] at h
        cases h

instance decidableExistsEqOk (x : Except ε α) (p : α → Prop) [DecidablePred p] :
    Decidable (∃ a, x = .ok a ∧ p a) :=
  match x with
  | .ok a => decidable_of_iff (p a) ⟨fun h ↦ ⟨a, rfl, h⟩, fun ⟨_, ha, h⟩ ↦ Except.ok.inj ha ▸ h⟩
  | .error _ => isFalse nofun

/-- The results are related, or the errors are, or the error of the first is excused. -/
def Agrees (excused : ε → Prop) (bad : ε → ε' → Prop) (ok : α → β → Prop) :
    Except ε α → Except ε' β → Prop
  | .ok a, .ok b => ok a b
  | .ok _, .error _ => False
  | .error e, .ok _ => excused e
  | .error e, .error e' => excused e ∨ bad e e'

variable {excused : ε → Prop} {bad : ε → ε' → Prop} {ok : α → β → Prop} {ok' : γ → δ → Prop}
  {x : Except ε α} {y : Except ε' β}

/-- An outcome agrees with itself. -/
theorem Agrees.self {bad : ε → ε → Prop} {ok : α → α → Prop} {x : Except ε α}
    (hbad : ∀ e, bad e e) (hok : ∀ a, x = .ok a → ok a a) : x.Agrees excused bad ok x := by
  rcases x with e | a
  · exact .inr (hbad e)
  · exact hok a rfl

theorem Agrees.mono {excused' : ε → Prop} {bad' : ε → ε' → Prop} {ok' : α → β → Prop}
    (h : x.Agrees excused bad ok y) (hexcused : ∀ e, excused e → excused' e)
    (hbad : ∀ e e', bad e e' → bad' e e') (hok : ∀ a b, ok a b → ok' a b) :
    x.Agrees excused' bad' ok' y := by
  rcases x with e | a <;> rcases y with e' | b
  · exact h.imp (hexcused e) (hbad e e')
  · exact hexcused e h
  · exact h
  · exact hok a b h

/-- Computations agree if their first steps do and what follows does after every agreeing pair of
first steps. -/
theorem Agrees.bind {f : α → Except ε γ} {g : β → Except ε' δ} (h : x.Agrees excused bad ok y)
    (hf : ∀ a b, x = .ok a → y = .ok b → ok a b → (f a).Agrees excused bad ok' (g b)) :
    (x >>= f).Agrees excused bad ok' (y >>= g) := by
  rcases x with e | a <;> rcases y with e' | b
  · exact h
  · change excused e at h
    change (Except.error e).Agrees excused bad ok' (g b)
    rcases g b with e' | d
    · exact .inl h
    · exact h
  · exact h.elim
  · exact hf a b rfl rfl h

theorem Agrees.map {f : α → γ} {g : β → δ} (h : x.Agrees excused bad ok y)
    (hf : ∀ a b, ok a b → ok' (f a) (g b)) : (f <$> x).Agrees excused bad ok' (g <$> y) := by
  rcases x with e | a <;> rcases y with e' | b
  · exact h
  · exact h
  · exact h
  · exact hf a b h

/-- Agreement carries over to renamed errors. -/
theorem Agrees.mapError {ε'' : Type} {excused' : ε'' → Prop} {bad' : ε'' → ε' → Prop} {g : ε → ε''}
    (h : x.Agrees excused bad ok y) (hexcused : ∀ e, excused e → excused' (g e))
    (hbad : ∀ e e', bad e e' → bad' (g e) e') : (x.mapError g).Agrees excused' bad' ok y := by
  rcases x with e | a <;> rcases y with e' | b
  · exact h.imp (hexcused e) (hbad e e')
  · exact hexcused e h
  · exact h
  · exact h

theorem Agrees.mapM {r : α → β → Prop} {as : List α} {bs : List β} {f : α → Except ε γ}
    {g : β → Except ε' δ} (h : List.Forall₂ r as bs)
    (hf : ∀ a b, r a b → (f a).Agrees excused bad ok' (g b)) :
    (as.mapM f).Agrees excused bad (List.Forall₂ ok') (bs.mapM g) := by
  induction h with
  | nil => exact .nil
  | cons hab _ ih =>
    rw [List.mapM_cons, List.mapM_cons]
    refine (hf _ _ hab).bind fun c d _ _ hcd ↦ ?_
    exact ih.bind fun cs ds _ _ hcsds ↦ .cons hcd hcsds

/-- The rows that are collected from one list agree if those of each of its elements do. -/
theorem Agrees.mapM_flatten {r : γ → δ → Prop} {as : List α} {f : α → Except ε (List γ)}
    {g : α → Except ε' (List δ)}
    (hf : ∀ a ∈ as, (f a).Agrees excused bad (List.Forall₂ r) (g a)) :
    (as.mapM f >>= fun rows ↦ pure rows.flatten).Agrees excused bad (List.Forall₂ r)
      (as.mapM g >>= fun rows ↦ pure rows.flatten) := by
  have hself : List.Forall₂ (fun a a' ↦ a = a' ∧ a ∈ as) as as :=
    List.forall₂_same.2 fun a ha ↦ ⟨rfl, ha⟩
  have hrows : (as.mapM f).Agrees excused bad (List.Forall₂ (List.Forall₂ r)) (as.mapM g) := by
    refine Agrees.mapM hself ?_
    rintro a _ ⟨rfl, ha⟩
    exact hf a ha
  exact hrows.bind fun rows rows' _ _ hall ↦ List.rel_flatten hall

end Except
