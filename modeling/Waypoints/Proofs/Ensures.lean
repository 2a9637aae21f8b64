/-!
# What steps ensure

`StateT.Ensures x s ok bad` says that the outcome of a step that reads and changes a state satisfies
`ok` if it succeeds and `bad` if it fails. The equations run this predicate through the parts of a
step, so that a statement about a function follows the function's own lines; `Ensures.mono` takes
the recursive calls.
-/

set_option autoImplicit false
set_option relaxedAutoImplicit false

namespace StateT

variable {σ ε α β : Type}

/-- The outcome of a step from a state satisfies `ok`, or `bad` if the step fails. -/
def Ensures (x : StateT σ (Except ε) α) (s : σ) (ok : α → σ → Prop) (bad : ε → Prop) : Prop :=
  match x s with
  | .ok (a, s') => ok a s'
  | .error e => bad e

variable {s : σ} {ok : α → σ → Prop} {bad : ε → Prop}

theorem Ensures.mono {x : StateT σ (Except ε) α} {ok' : α → σ → Prop} {bad' : ε → Prop}
    (h : x.Ensures s ok bad) (hok : ∀ a s', ok a s' → ok' a s') (hbad : ∀ e, bad e → bad' e) :
    x.Ensures s ok' bad' := by
  unfold Ensures at h ⊢
  split at h
  · exact hok _ _ h
  · exact hbad _ h

theorem Ensures.and {x : StateT σ (Except ε) α} {ok' : α → σ → Prop} {bad' : ε → Prop}
    (h : x.Ensures s ok bad) (h' : x.Ensures s ok' bad') :
    x.Ensures s (fun a s' ↦ ok a s' ∧ ok' a s') fun e ↦ bad e ∧ bad' e := by
  unfold Ensures at h h' ⊢
  split at h
  · next heq =>
    rw [heq] at h'
    exact ⟨h, h'⟩
  · next heq =>
    rw [heq] at h'
    exact ⟨h, h'⟩

theorem ensures_pure (a : α) :
    (pure a : StateT σ (Except ε) α).Ensures s ok bad ↔ ok a s :=
  Iff.rfl

theorem ensures_bind (x : StateT σ (Except ε) β) (f : β → StateT σ (Except ε) α) :
    (x >>= f).Ensures s ok bad ↔ x.Ensures s (fun b s' ↦ (f b).Ensures s' ok bad) bad := by
  unfold Ensures
  change (match Except.bind (x s) fun p ↦ f p.1 p.2 with
    | .ok (a, s') => ok a s'
    | .error e => bad e) ↔ _
  rcases x s with e | ⟨b, s'⟩ <;> rfl

theorem bind_of_ok {x : StateT σ (Except ε) β} {f : β → StateT σ (Except ε) α} {b : β} {s' : σ}
    (h : x s = .ok (b, s')) : (x >>= f) s = f b s' := by
  change Except.bind (x s) _ = _
  rw [h]
  rfl

theorem ensures_ite (b : Prop) [Decidable b] (x y : StateT σ (Except ε) α) :
    (if b then x else y).Ensures s ok bad ↔
      if b then x.Ensures s ok bad else y.Ensures s ok bad := by
  split <;> rfl

theorem ensures_get {ok : σ → σ → Prop} :
    (get : StateT σ (Except ε) σ).Ensures s ok bad ↔ ok s s :=
  Iff.rfl

theorem ensures_modify {ok : PUnit → σ → Prop} (f : σ → σ) :
    (modify f : StateT σ (Except ε) PUnit).Ensures s ok bad ↔ ok ⟨⟩ (f s) :=
  Iff.rfl

theorem ensures_liftM (x : Except ε α) :
    (liftM x : StateT σ (Except ε) α).Ensures s ok bad ↔
      match x with
      | .ok a => ok a s
      | .error e => bad e := by
  rcases x with e | a <;> rfl

/-- A relation between the state before, the results and the state after holds of a row of steps if
every step puts its result in front.

Assumes: the relation holds of no step, and each step extends it. -/
theorem ensures_mapM {rel : σ → List β → σ → Prop} (hnil : ∀ s, rel s [] s)
    {f : α → StateT σ (Except ε) β} {as : List α}
    (hcons : ∀ a ∈ as, ∀ s, (f a).Ensures s
      (fun b s' ↦ ∀ bs s'', rel s' bs s'' → rel s (b :: bs) s'') bad) (s : σ) :
    (as.mapM f).Ensures s (rel s) bad := by
  induction as generalizing s with
  | nil => exact hnil s
  | cons a as ih =>
    obtain ⟨ha, has⟩ := List.forall_mem_cons.1 hcons
    rw [List.mapM_cons, ensures_bind]
    refine (ha s).mono (fun b s' hb ↦ ?_) fun _ h ↦ h
    rw [ensures_bind]
    exact (ih has s').mono (fun bs s'' hbs ↦ hb bs s'' hbs) fun _ h ↦ h

/-! ### Outcomes of steps in sequence -/

variable {e : ε}

theorem bind_eq_ok_iff {x : StateT σ (Except ε) β} {f : β → StateT σ (Except ε) α} {a : α}
    {s' : σ} : (x >>= f) s = .ok (a, s') ↔ ∃ b t, x s = .ok (b, t) ∧ f b t = .ok (a, s') := by
  constructor
  · intro h
    change Except.bind (x s) (fun p ↦ f p.1 p.2) = _ at h
    rcases hx : x s with e | ⟨b, t⟩
    · rw [hx] at h
      cases h
    · rw [hx] at h
      exact ⟨b, t, rfl, h⟩
  · rintro ⟨b, t, hx, hf⟩
    rw [bind_of_ok hx, hf]

theorem bind_eq_error_iff {x : StateT σ (Except ε) β} {f : β → StateT σ (Except ε) α} :
    (x >>= f) s = .error e ↔ x s = .error e ∨ ∃ b s', x s = .ok (b, s') ∧ f b s' = .error e := by
  change Except.bind (x s) (fun p ↦ f p.1 p.2) = _ ↔ _
  rcases x s with e' | ⟨b, s'⟩
  · simp only [Except.bind, Except.error.injEq, reduceCtorEq, false_and, exists_false, or_false]
  · simp only [Except.bind, Except.ok.injEq, Prod.mk.injEq, reduceCtorEq, false_or]
    exact ⟨fun h ↦ ⟨b, s', ⟨rfl, rfl⟩, h⟩, fun ⟨_, _, ⟨hb, hs⟩, h⟩ ↦ by rwa [hb, hs]⟩

theorem liftM_eq_error_iff {x : Except ε α} :
    (liftM x : StateT σ (Except ε) α) s = .error e ↔ x = .error e := by
  rcases x with e' | a
  · exact ⟨fun h ↦ congrArg Except.error (Except.error.inj h), fun h ↦
      congrArg Except.error (Except.error.inj h)⟩
  · exact ⟨nofun, nofun⟩

theorem liftM_eq_ok_iff {x : Except ε α} {a : α} {s' : σ} :
    (liftM x : StateT σ (Except ε) α) s = .ok (a, s') ↔ x = .ok a ∧ s' = s := by
  rcases x with e' | a'
  · exact ⟨nofun, nofun⟩
  · constructor
    · intro h
      obtain ⟨rfl, rfl⟩ := Prod.mk.inj (Except.ok.inj h)
      exact ⟨rfl, rfl⟩
    · rintro ⟨h, rfl⟩
      obtain rfl := Except.ok.inj h
      rfl

/-- A row of steps fails where one of them does after those before it. -/
theorem mapM_eq_error_iff {f : α → StateT σ (Except ε) β} {as : List α} :
    as.mapM f s = .error e ↔ ∃ before a after built s', as = before ++ a :: after ∧
      before.mapM f s = .ok (built, s') ∧ f a s' = .error e := by
  constructor
  · intro h
    induction as generalizing s with
    | nil => cases h
    | cons a as ih =>
      rw [List.mapM_cons] at h
      rcases bind_eq_error_iff.1 h with h | ⟨b, s', hb, h⟩
      · exact ⟨[], a, as, [], s, rfl, rfl, h⟩
      rcases bind_eq_error_iff.1 h with h | ⟨bs, s'', -, h⟩
      · obtain ⟨before, a', after, built, s'', rfl, hbefore, h⟩ := ih h
        refine ⟨a :: before, a', after, b :: built, s'', rfl, ?_, h⟩
        rw [List.mapM_cons, bind_of_ok hb, bind_of_ok hbefore]
        rfl
      · cases h
  · rintro ⟨before, a, after, built, s', rfl, hbefore, h⟩
    rw [List.mapM_append, bind_of_ok hbefore, List.mapM_cons]
    exact bind_eq_error_iff.2 (.inl (bind_eq_error_iff.2 (.inl h)))

end StateT
