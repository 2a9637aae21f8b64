import Waypoints.Proofs.Match.Sessions
/-!
# The sides do not meet

An action on a side reads the board and the player of that side, and changes nothing but that player
(`World.perform_act_fst`, `World.perform_act_snd`). So two actions on different sides do not meet
(`World.apart_act`): however the actions on one side are interleaved with those on the other, every
action is replied to as if the other side had done nothing, and the world is the same in the end
(`interleavings_agree`).
-/

set_option autoImplicit false
set_option relaxedAutoImplicit false

namespace Waypoints

/-! ### Changes to different elements -/

section Updates

variable {α : Type} {test other : α → Bool} {f g : α → α} {l : List α}

theorem updateFirst_of_find?_eq_none (h : l.find? test = none) : updateFirst test f l = l := by
  induction l with
  | nil => rfl
  | cons a l ih =>
    obtain ⟨ha, hl⟩ := List.forall_mem_cons.1 (List.find?_eq_none.1 h)
    exact (if_neg ha).trans (congrArg (List.cons a) (ih (List.find?_eq_none.2 hl)))

/-- What a test finds is the same after a change to the first element that another test accepts, if
no element passes both and the change keeps what the first test says. -/
theorem find?_updateFirst (hapart : ∀ a, test a → other a = false)
    (hkept : ∀ a, other (f a) = other a) : (updateFirst test f l).find? other = l.find? other := by
  induction l with
  | nil => rfl
  | cons a l ih =>
    unfold updateFirst
    by_cases ha : test a
    · have hbefore : ¬other a := Bool.eq_false_iff.1 (hapart a ha)
      have hafter : ¬other (f a) := by rwa [hkept]
      rw [if_pos ha, List.find?_cons_of_neg hafter, List.find?_cons_of_neg hbefore]
    · rw [if_neg ha, List.find?_cons, List.find?_cons, ih]

/-- Changes to the first elements that exclusive tests accept do not meet. -/
theorem updateFirst_comm (hapart : ∀ a, test a → other a = false)
    (hf : ∀ a, other (f a) = other a) (hg : ∀ a, test (g a) = test a) :
    updateFirst test f (updateFirst other g l) = updateFirst other g (updateFirst test f l) := by
  induction l with
  | nil => rfl
  | cons a l ih =>
    by_cases ha : test a
    · have hother : ¬other a := Bool.eq_false_iff.1 (hapart a ha)
      have hafter : ¬other (f a) := by rwa [hf]
      simp only [updateFirst, if_pos ha, if_neg hother, if_neg hafter]
    · by_cases hother : other a
      · have hafter : ¬test (g a) := by rwa [hg]
        simp only [updateFirst, if_neg ha, if_pos hother, if_neg hafter]
      · simp only [updateFirst, if_neg ha, if_neg hother, ih]

end Updates

/-! ### Actions on different sides -/

namespace World

/-- An action changes the player of its side, if there is one. -/
theorem perform_act_fst (w : World) (side : Side) (action : Player.Action) :
    (w.perform (.act side action)).1 =
      w.updatePlayer side fun p ↦ (p.act w.board action).1 := by
  change (w.onPlayer side _).1 = _
  unfold onPlayer updatePlayer
  cases hplayer : w.player? side with
  | none => rw [updateFirst_of_find?_eq_none hplayer]
  | some p => exact congrArg (World.mk w.board w.registry) (updateFirst_congr hplayer rfl)

/-- The reply to an action is that of the player of its side, if there is one. -/
theorem perform_act_snd (w : World) (side : Side) (action : Player.Action) :
    (w.perform (.act side action)).2 =
      (w.player? side).elim .nothing fun p ↦ (p.act w.board action).2 := by
  change (w.onPlayer side _).2 = _
  unfold onPlayer
  cases w.player? side <;> rfl

theorem side_act (board : Board) (p : Player) (action : Player.Action) :
    (p.act board action).1.side = p.side :=
  (p.acts_act board action).side_eq

/-- What is changed of the player of a side is not seen from the other side. -/
theorem player?_perform_act {side other : Side} (h : side ≠ other) (w : World)
    (action : Player.Action) :
    (w.perform (.act side action)).1.player? other = w.player? other := by
  rw [perform_act_fst]
  refine find?_updateFirst (fun p hp ↦ ?_) fun p ↦ ?_
  · rw [beq_iff_eq.1 hp]
    exact beq_eq_false_iff_ne.2 h
  · rw [side_act]

theorem board_perform_act (w : World) (side : Side) (action : Player.Action) :
    (w.perform (.act side action)).1.board = w.board := by
  rw [perform_act_fst]
  rfl

/-- The reply to an action is the same after one on another side. -/
theorem perform_act_snd_of_ne {side other : Side} (h : other ≠ side) (w : World)
    (action before : Player.Action) :
    ((w.perform (.act other before)).1.perform (.act side action)).2 =
      (w.perform (.act side action)).2 := by
  rw [perform_act_snd, perform_act_snd, player?_perform_act h, board_perform_act]

/-- Actions on different sides do not meet. -/
theorem apart_act {side other : Side} (h : side ≠ other) (action otherAction : Player.Action) :
    System.Apart perform (.act side action) (.act other otherAction) where
  left_eq w := perform_act_snd_of_ne h.symm w action otherAction
  right_eq w := perform_act_snd_of_ne h w otherAction action
  state_eq w := by
    rw [perform_act_fst, board_perform_act, perform_act_fst, perform_act_fst, board_perform_act,
      perform_act_fst]
    refine congrArg (World.mk w.board w.registry) (updateFirst_comm (fun p hp ↦ ?_) ?_ ?_)
    · rw [beq_iff_eq.1 hp]
      exact beq_eq_false_iff_ne.2 h
    · intro p
      rw [side_act]
    · intro p
      rw [side_act]

theorem apart_acts {side other : Side} (h : side ≠ other) {actions others : List Player.Action} :
    ∀ a ∈ actions.map (Operation.act side), ∀ b ∈ others.map (Operation.act other),
      System.Apart perform a b := by
  intro a ha b hb
  obtain ⟨action, -, rfl⟩ := List.mem_map.1 ha
  obtain ⟨otherAction, -, rfl⟩ := List.mem_map.1 hb
  exact apart_act h action otherAction

/-! ### Interleaved actions -/

section Interleavings

variable {w : World} {actions others ones twos : List Player.Action} {all : List Operation}

/-- The actions on a side in an interleaving are replied to as in their own row alone. -/
theorem actionsOn_interleaving {side other : Side} (h : side ≠ other)
    (hall : System.Interleaves (actions.map (.act side)) (others.map (.act other)) all)
    (w : World) : actionsOn side (System.trace perform w all) =
      actionsOn side (System.trace perform w (actions.map (.act side))) := by
  refine (hall.trace (apart_acts h) w).filterMap_eq fun e he ↦ ?_
  obtain ⟨otherAction, -, hact⟩ := List.mem_map.1 (System.mem_of_mem_trace _ he)
  rw [← hact, Operation.on?_act_of_ne h.symm]
  rfl

/-- An interleaving leads to where the one side's actions lead and then the other's. -/
theorem after_interleaving
    (hall : System.Interleaves (ones.map (.act .one)) (twos.map (.act .two)) all) (w : World) :
    System.after perform w all =
      System.after perform (System.after perform w (ones.map (.act .one)))
        (twos.map (.act .two)) :=
  hall.after_eq (apart_acts Side.noConfusion) w

end Interleavings

end World

/-- However a row of actions on the one side is interleaved with a row of actions on the other, the
world is the same in the end, and each action is replied to as if the other side had done
nothing. -/
theorem interleavings_agree (w : World) {ones twos : List Player.Action}
    {first second : List World.Operation}
    (hfirst : System.Interleaves (ones.map (.act .one)) (twos.map (.act .two)) first)
    (hsecond : System.Interleaves (ones.map (.act .one)) (twos.map (.act .two)) second) :
    System.after World.perform w first = System.after World.perform w second ∧
      (∀ side, World.actionsOn side (System.trace World.perform w first) =
        World.actionsOn side (System.trace World.perform w second)) ∧
      World.actionsOn .one (System.trace World.perform w first) =
        World.actionsOn .one (System.trace World.perform w (ones.map (.act .one))) ∧
      World.actionsOn .two (System.trace World.perform w first) =
        World.actionsOn .two (System.trace World.perform w (twos.map (.act .two))) := by
  have hone {all : List World.Operation}
      (h : System.Interleaves (ones.map (.act .one)) (twos.map (.act .two)) all) :=
    World.actionsOn_interleaving Side.noConfusion h w
  have htwo {all : List World.Operation}
      (h : System.Interleaves (ones.map (.act .one)) (twos.map (.act .two)) all) :=
    World.actionsOn_interleaving Side.noConfusion h.symm w
  refine ⟨?_, fun side ↦ ?_, hone hfirst, htwo hfirst⟩
  · rw [World.after_interleaving hfirst, World.after_interleaving hsecond]
  · cases side with
    | one => rw [hone hfirst, hone hsecond]
    | two => rw [htwo hfirst, htwo hsecond]

/-- Whether the other side takes its piece away before two actions of a side or between them, the
world is the same in the end, and the side is replied to alike. -/
theorem interleavings_agree_removal :
    let ones : List Player.Action := [.moves ⟨.one, 0⟩, .spawn .still .zero]
    let twos : List Player.Action := [.remove ⟨.two, 0⟩]
    let first : List World.Operation := [.act .one (.moves ⟨.one, 0⟩),
      .act .two (.remove ⟨.two, 0⟩), .act .one (.spawn .still .zero)]
    let second : List World.Operation := [.act .two (.remove ⟨.two, 0⟩),
      .act .one (.moves ⟨.one, 0⟩), .act .one (.spawn .still .zero)]
    System.Interleaves (ones.map (.act .one)) (twos.map (.act .two)) first ∧
      System.Interleaves (ones.map (.act .one)) (twos.map (.act .two)) second ∧
      ∃ w, World.setup .still = .ok w ∧
        System.after World.perform w first = System.after World.perform w second ∧
        ∀ side, World.actionsOn side (System.trace World.perform w first) =
          World.actionsOn side (System.trace World.perform w second) := by
  intro ones twos first second
  have hfirst : System.Interleaves (ones.map (.act .one)) (twos.map (.act .two)) first :=
    .left (.right (.left .nil))
  have hsecond : System.Interleaves (ones.map (.act .one)) (twos.map (.act .two)) second :=
    .right (.left (.left .nil))
  obtain ⟨w, hw⟩ : ∃ w, World.setup .still = .ok w := ⟨_, rfl⟩
  have hagree := interleavings_agree w hfirst hsecond
  exact ⟨hfirst, hsecond, w, hw, hagree.1, hagree.2.1⟩

end Waypoints
