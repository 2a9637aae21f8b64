/-!
# Runs of systems that answer requests

A system answers each request with a reply and goes into its next state. `System.after` is the state
after a row of requests, and `System.trace` are the requests with the replies to them. What holds at
the start, and is kept by a step whatever the trace so far, holds after every run
(`System.invariant`). If the requests of two rows do not meet, then in every interleaving of the
rows each request is replied to as in its own row alone (`System.Interleaves.trace`), and all
interleavings lead to the same state (`System.Interleaves.after_eq`).
-/

set_option autoImplicit false
set_option relaxedAutoImplicit false

namespace Waypoints

/-- What a request does in a state: the next state and the reply. -/
abbrev System (σ ρ α : Type) := σ → ρ → σ × α

namespace System

variable {σ ρ α : Type} (step : System σ ρ α)

/-- The state after a row of requests. -/
def after (s : σ) (requests : List ρ) : σ :=
  requests.foldl (fun s request ↦ (step s request).1) s

/-- The requests of a row, each with the reply to it. -/
def trace (s : σ) : List ρ → List (ρ × α)
  | [] => []
  | request :: requests => (request, (step s request).2) :: trace (step s request).1 requests

@[simp]
theorem after_nil (s : σ) : after step s [] = s :=
  rfl

@[simp]
theorem after_cons (s : σ) (request : ρ) (requests : List ρ) :
    after step s (request :: requests) = after step (step s request).1 requests :=
  rfl

@[simp]
theorem trace_nil (s : σ) : trace step s [] = [] :=
  rfl

@[simp]
theorem trace_cons (s : σ) (request : ρ) (requests : List ρ) :
    trace step s (request :: requests) =
      (request, (step s request).2) :: trace step (step s request).1 requests :=
  rfl

/-- A trace is of the requests of its row. -/
theorem mem_of_mem_trace {s : σ} {requests : List ρ} {e : ρ × α} (h : e ∈ trace step s requests) :
    e.1 ∈ requests := by
  induction requests generalizing s with
  | nil => cases h
  | cons request requests ih =>
    rcases List.mem_cons.1 h with rfl | h
    · exact .head _
    · exact .tail _ (ih h)

theorem after_append (s : σ) (first second : List ρ) :
    after step s (first ++ second) = after step (after step s first) second :=
  List.foldl_append

/-- What holds at the start and is kept by every step holds after every run, of its last state and
its trace. -/
theorem invariant (inv : σ → List (ρ × α) → Prop) {s : σ} (hstart : inv s [])
    (hstep : ∀ s trace request, inv s trace →
      inv (step s request).1 (trace ++ [(request, (step s request).2)])) (requests : List ρ) :
    inv (after step s requests) (trace step s requests) := by
  -- By induction on what is still to come, for any trace of what is past.
  suffices ∀ past s, inv s past →
      inv (after step s requests) (past ++ trace step s requests) from this [] s hstart
  induction requests with
  | nil =>
    intro past s h
    rw [trace_nil, List.append_nil]
    exact h
  | cons request requests ih =>
    intro past s h
    have hnext := ih _ _ (hstep s past request h)
    rwa [List.append_assoc] at hnext

/-! ### Interleavings -/

/-- A row is made up of two rows, the requests of each of them in its order. -/
inductive Interleaves {ρ : Type} : List ρ → List ρ → List ρ → Prop
  | nil : Interleaves [] [] []
  | left {request : ρ} {lefts rights all : List ρ} :
      Interleaves lefts rights all → Interleaves (request :: lefts) rights (request :: all)
  | right {request : ρ} {lefts rights all : List ρ} :
      Interleaves lefts rights all → Interleaves lefts (request :: rights) (request :: all)

/-- Two requests do not meet: in every state each gets the reply that it gets without the other, and
the state after both is the same whichever is first. -/
structure Apart (a b : ρ) : Prop where
  state_eq : ∀ s, (step (step s b).1 a).1 = (step (step s a).1 b).1
  left_eq : ∀ s, (step (step s b).1 a).2 = (step s a).2
  right_eq : ∀ s, (step (step s a).1 b).2 = (step s b).2

section Interleavings

variable {step} {a b : ρ} {lefts rights all : List ρ}

theorem Apart.symm (h : Apart step a b) : Apart step b a where
  state_eq s := (h.state_eq s).symm
  left_eq := h.right_eq
  right_eq := h.left_eq

/-- A request that meets none of a row may be made before it or after it. -/
theorem after_of_apart (h : ∀ a ∈ lefts, Apart step a b) (s : σ) :
    after step (step s b).1 lefts = (step (after step s lefts) b).1 := by
  induction lefts generalizing s with
  | nil => rfl
  | cons a lefts ih =>
    obtain ⟨ha, hlefts⟩ := List.forall_mem_cons.1 h
    rw [after_cons, after_cons, ha.state_eq, ih hlefts]

theorem trace_of_apart (h : ∀ a ∈ lefts, Apart step a b) (s : σ) :
    trace step (step s b).1 lefts = trace step s lefts := by
  induction lefts generalizing s with
  | nil => rfl
  | cons a lefts ih =>
    obtain ⟨ha, hlefts⟩ := List.forall_mem_cons.1 h
    rw [trace_cons, trace_cons, ha.state_eq, ha.left_eq, ih hlefts]

/-- An interleaving leads to where its rows lead one after the other. -/
theorem Interleaves.after_eq (h : Interleaves lefts rights all)
    (hapart : ∀ a ∈ lefts, ∀ b ∈ rights, Apart step a b) (s : σ) :
    after step s all = after step (after step s lefts) rights := by
  induction h generalizing s with
  | nil => rfl
  | left _ ih => exact ih (fun a ha ↦ hapart a (.tail _ ha)) _
  | @right b lefts rights all _ ih =>
    have hb : ∀ a ∈ lefts, Apart step a b := fun a ha ↦ hapart a ha b (.head _)
    rw [after_cons, ih (fun a ha c hc ↦ hapart a ha c (.tail _ hc)), after_of_apart hb, after_cons]

/-- Each request of an interleaving is replied to as in its own row alone. -/
theorem Interleaves.trace (h : Interleaves lefts rights all)
    (hapart : ∀ a ∈ lefts, ∀ b ∈ rights, Apart step a b) (s : σ) :
    Interleaves (trace step s lefts) (trace step s rights) (trace step s all) := by
  induction h generalizing s with
  | nil => exact .nil
  | @left a lefts rights all _ ih =>
    have ha : ∀ b ∈ rights, Apart step b a := fun b hb ↦ (hapart a (.head _) b hb).symm
    have hrest := ih (fun c hc ↦ hapart c (.tail _ hc)) (step s a).1
    rw [trace_of_apart ha] at hrest
    exact .left hrest
  | @right b lefts rights all _ ih =>
    have hb : ∀ a ∈ lefts, Apart step a b := fun a ha ↦ hapart a ha b (.head _)
    have hrest := ih (fun a ha c hc ↦ hapart a ha c (.tail _ hc)) (step s b).1
    rw [trace_of_apart hb] at hrest
    exact .right hrest

/-- What is read off one of two rows alone is read off an interleaving of them. -/
theorem Interleaves.filterMap_eq {α : Type} {f : ρ → Option α} (h : Interleaves lefts rights all)
    (hf : ∀ b ∈ rights, f b = none) : all.filterMap f = lefts.filterMap f := by
  induction h with
  | nil => rfl
  | left _ ih => rw [List.filterMap_cons, List.filterMap_cons, ih hf]
  | right _ ih =>
    obtain ⟨hb, hrights⟩ := List.forall_mem_cons.1 hf
    rw [List.filterMap_cons_none hb, ih hrights]

theorem Interleaves.symm (h : Interleaves lefts rights all) : Interleaves rights lefts all := by
  induction h with
  | nil => exact .nil
  | left _ ih => exact .right ih
  | right _ ih => exact .left ih

end Interleavings

end System

end Waypoints
