import Mathlib.Data.List.Forall2
/-!
# The first fault

`Except.Reports x faults ok` says that a computation fails with the first of a row of faults, and
that its result satisfies `ok` if there is none. `Reports.bind` puts the faults of what follows
behind those of the first step, so that the faults of a computation are read off its lines.
-/

set_option autoImplicit false
set_option relaxedAutoImplicit false

/-- A row that is related to another just by the images under a map. -/
theorem List.forall₂_iff_eq_map {α β : Type} {r : α → β → Prop} {f : α → β} {as : List α}
    {bs : List β} (h : ∀ a ∈ as, ∀ b, r a b ↔ b = f a) : List.Forall₂ r as bs ↔ bs = as.map f := by
  induction as generalizing bs with
  | nil => exact List.forall₂_nil_left_iff
  | cons a as ih =>
    obtain ⟨ha, has⟩ := List.forall_mem_cons.1 h
    rw [List.forall₂_cons_left_iff]
    constructor
    · rintro ⟨b, bs, hb, hbs, rfl⟩
      rw [(ha b).1 hb, (ih has).1 hbs, List.map_cons]
    · rintro rfl
      exact ⟨f a, as.map f, (ha _).2 rfl, (ih has).2 rfl, rfl⟩

namespace Except

variable {ε α β : Type}

/-- The error is the first fault; without a fault there is a result that satisfies `ok`. -/
def Reports (x : Except ε α) (faults : List ε) (ok : α → Prop) : Prop :=
  match x with
  | .ok a => faults = [] ∧ ok a
  | .error e => faults.head? = some e

variable {x : Except ε α} {faults faults' : List ε} {ok : α → Prop} {ok' : β → Prop}

theorem Reports.imp {p : α → Prop} (h : x.Reports faults ok) (hok : ∀ a, ok a → p a) :
    x.Reports faults p := by
  rcases x with e | a
  · exact h
  · exact ⟨h.1, hok a h.2⟩

/-- Only the first fault counts. -/
theorem Reports.congr (h : x.Reports faults ok) (hhead : faults.head? = faults'.head?) :
    x.Reports faults' ok := by
  rcases x with e | a
  · exact hhead.symm.trans h
  · obtain ⟨rfl, ha⟩ := h
    exact ⟨List.head?_eq_none_iff.1 hhead.symm, ha⟩

theorem reports_ok {a : α} (h : ok a) : (Except.ok a : Except ε α).Reports [] ok :=
  ⟨rfl, h⟩

theorem reports_error (e : ε) : (Except.error e : Except ε α).Reports [e] ok :=
  rfl

/-- The error of a computation that fails. -/
def errors : Except ε α → List ε
  | .ok _ => []
  | .error e => [e]

theorem reports_errors (x : Except ε α) : x.Reports x.errors (x = .ok ·) := by
  cases x with
  | ok a => exact reports_ok rfl
  | error e => exact reports_error e

theorem Reports.bind {f : α → Except ε β} (h : x.Reports faults ok)
    (hf : ∀ a, ok a → (f a).Reports faults' ok') : (x >>= f).Reports (faults ++ faults') ok' := by
  rcases x with e | a
  · change (faults ++ faults').head? = some e
    rw [List.head?_append, show faults.head? = some e from h]
    rfl
  · obtain ⟨rfl, ha⟩ := h
    exact hf a ha

theorem Reports.map {f : α → β} (h : x.Reports faults ok) (hf : ∀ a, ok a → ok' (f a)) :
    (f <$> x).Reports faults ok' := by
  rcases x with e | a
  · exact h
  · exact ⟨h.1, hf a h.2⟩

theorem Reports.mapM {r : α → β → Prop} {f : α → Except ε β} {each : α → List ε} {as : List α}
    (h : ∀ a ∈ as, (f a).Reports (each a) (r a)) :
    (as.mapM f).Reports (as.flatMap each) (List.Forall₂ r as) := by
  induction as with
  | nil => exact reports_ok .nil
  | cons a as ih =>
    obtain ⟨ha, has⟩ := List.forall_mem_cons.1 h
    rw [List.mapM_cons, List.flatMap_cons]
    refine ha.bind fun b hb ↦ ?_
    rw [← List.append_nil (as.flatMap each)]
    exact (ih has).bind fun bs hbs ↦ reports_ok (.cons hb hbs)

/-- What is collected from the rows of a list, where each row is known if there is one. -/
theorem Reports.mapM_flatten {f : α → Except ε (List β)} {each : α → List ε} {row : α → List β}
    {as : List α} (h : ∀ a ∈ as, (f a).Reports (each a) (· = row a)) :
    (as.mapM f >>= fun rows ↦ pure rows.flatten).Reports (as.flatMap each)
      (· = as.flatMap row) := by
  rw [← List.append_nil (as.flatMap each)]
  refine (Reports.mapM h).bind fun rows hrows ↦ reports_ok ?_
  rw [(List.forall₂_iff_eq_map fun _ _ _ ↦ Iff.rfl).1 hrows, List.flatMap_def]

/-- An invariant of what is done so far holds of a whole row of steps. -/
theorem Reports.foldlM {σ : Type} (inv : List α → σ → Prop) {f : σ → α → Except ε σ}
    {each : α → List ε} {as : List α}
    (hstep : ∀ done a rest s, as = done ++ a :: rest → inv done s →
      (f s a).Reports (each a) (inv (done ++ [a])))
    {s : σ} (hs : inv [] s) : (as.foldlM f s).Reports (as.flatMap each) (inv as) := by
  suffices ∀ (rest done : List α) (s : σ), as = done ++ rest → inv done s →
      (rest.foldlM f s).Reports (rest.flatMap each) (inv as) from this as [] s rfl hs
  -- By induction on the steps that are left, with the invariant for those that are done.
  intro rest
  induction rest with
  | nil =>
    rintro done s rfl h
    rw [List.append_nil]
    exact reports_ok h
  | cons a rest ih =>
    intro done s has h
    rw [List.foldlM_cons, List.flatMap_cons]
    refine (hstep done a rest s has h).bind fun s' hs' ↦ ?_
    exact ih (done ++ [a]) s' (by rw [has, List.append_assoc]; rfl) hs'

theorem Reports.of_eq_ok {a : α} (h : x.Reports faults ok) (hx : x = .ok a) : ok a := by
  rw [hx] at h
  exact h.2

theorem Reports.error_iff (h : x.Reports faults ok) (e : ε) :
    x = .error e ↔ faults.head? = some e := by
  rcases x with e' | a
  · change faults.head? = some e' at h
    rw [h, Option.some_inj, Except.error.injEq]
  · obtain ⟨rfl, -⟩ := h
    constructor <;> exact fun h ↦ nomatch h

theorem Reports.exists_ok_iff (h : x.Reports faults ok) : (∃ a, x = .ok a) ↔ faults = [] := by
  rcases x with e | a
  · constructor
    · rintro ⟨a, h⟩
      cases h
    · rintro rfl
      cases h
  · exact ⟨fun _ ↦ h.1, fun _ ↦ ⟨a, rfl⟩⟩

end Except
