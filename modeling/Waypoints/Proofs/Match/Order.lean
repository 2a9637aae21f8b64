import Mathlib.Data.List.Induction
import Waypoints.Proofs.Match.Roster
/-!
# The order of the pieces of a match

The pieces of a world stand in the order in which the players joined. So those of the first side
come first unless the second side joined first and both have pieces. Setting up a match is a run in
which the first side joins first (`exists_run_of_setup`), so that whatever is done after it the
first side's pieces come first. `pieces_inOrder_iff` says both.
-/

set_option autoImplicit false
set_option relaxedAutoImplicit false

namespace Waypoints

namespace World

/-- All pieces of the first side come before any of the second. -/
def InOrder (w : World) : Prop :=
  w.pieces.Pairwise fun p q ↦ ¬(p.owner = .two ∧ q.owner = .one)

/-! ### Who joined first -/

/-- The side of the participant whom an operation would seat. -/
def Operation.joins? : Operation → Option Side
  | .addPlayer participant => participant.side?
  | .act _ _ => none

/-- The sides that join in the course of operations, each when its participant first does. -/
def seating (operations : List Operation) : List Side :=
  (operations.filterMap Operation.joins?).eraseDups

/-- Who has joined keeps its place, whatever is done later. -/
theorem seating_mono (first second : List Operation) :
    seating first <+: seating (first ++ second) := by
  unfold seating
  rw [List.filterMap_append, List.eraseDups_append]
  exact List.prefix_append _ _

/-- A side that joins again does not count. -/
theorem seating_concat (operations : List Operation) (operation : Operation) :
    seating (operations ++ [operation]) =
      match operation.joins? with
      | none => seating operations
      | some side =>
        if side ∈ seating operations then seating operations else seating operations ++ [side] := by
  unfold seating
  rw [List.filterMap_append, List.filterMap_cons]
  cases operation.joins? with
  | none => exact congrArg List.eraseDups (List.append_nil _)
  | some side =>
    change (_ ++ [side]).eraseDups = if _ then _ else _
    rw [List.eraseDups_append]
    by_cases hside : side ∈ operations.filterMap Operation.joins?
    · have hnone : [side].removeAll (operations.filterMap Operation.joins?) = [] := by
        simpa [List.removeAll] using hside
      rw [if_pos (List.mem_eraseDups.2 hside), hnone]
      exact List.append_nil _
    · have hone : [side].removeAll (operations.filterMap Operation.joins?) = [side] := by
        simpa [List.removeAll] using hside
      rw [if_neg (mt List.mem_eraseDups.1 hside), hone]
      rfl

theorem sides_perform_act (w : World) (side : Side) (action : Player.Action) :
    (w.perform (.act side action)).1.players.map (·.side) = w.players.map (·.side) := by
  rcases w.perform_act side action with ⟨-, hperform⟩ | ⟨before, p, later, hplayers, -, hperform⟩
  · rw [hperform]
  · rw [hperform, hplayers, List.map_append, List.map_append, List.map_cons, List.map_cons,
      (p.acts_act w.board action).side_eq]

/-- The players stand in the order in which they joined. -/
theorem sides_after (board : Board) (registry : Registry) (operations : List Operation) :
    (System.after perform (fresh board registry) operations).players.map (·.side) =
      seating operations := by
  induction operations using List.reverseRecOn with
  | nil => rfl
  | append_singleton operations operation ih =>
    have hnodup := (keeps_after board registry operations).nodup
    rw [System.after_append, System.after_cons, System.after_nil, seating_concat]
    cases operation with
    | addPlayer participant =>
      have hjoins : (Operation.addPlayer participant).joins? = participant.side? := rfl
      rw [perform_addPlayer hnodup, ← ih, hjoins]
      cases participant.side? with
      | none => rfl
      | some side =>
        change (if _ then _ else _ : World).players.map (·.side) = if _ then _ else _
        split_ifs
        · rfl
        · exact List.map_append
    | act side action => exact (sides_perform_act _ side action).trans ih

/-! ### The order of the pieces -/

/-- The order is wrong just if the second side stands first and both have pieces. -/
theorem Keeps.inOrder_iff {board : Board} {w : World} {trace : List (Operation × Reply)}
    (h : w.Keeps board trace) : w.InOrder ↔
      ¬(w.players.map (·.side) = [.two, .one] ∧ ∀ p ∈ w.players, p.pieces ≠ []) := by
  have howner : ∀ p ∈ w.players, ∀ piece ∈ p.pieces, piece.owner = p.side :=
    fun p hp ↦ (h.accounts p hp).owner_eq
  rw [InOrder, pieces, List.pairwise_flatMap]
  constructor
  · rintro ⟨-, hpairs⟩ ⟨hsides, hpieces⟩
    obtain ⟨p, _, hplayers, hp, hrest⟩ := List.map_eq_cons_iff.1 hsides
    obtain ⟨q, _, rfl, hq, -⟩ := List.map_eq_cons_iff.1 hrest
    rw [hplayers] at hpairs hpieces howner
    obtain ⟨piece, hpiece⟩ := List.exists_mem_of_ne_nil _ (hpieces p List.mem_cons_self)
    obtain ⟨piece', hpiece'⟩ := List.exists_mem_of_ne_nil _
      (hpieces q (List.mem_cons_of_mem _ List.mem_cons_self))
    refine (List.pairwise_cons.1 hpairs).1 q List.mem_cons_self piece hpiece piece' hpiece' ⟨?_, ?_⟩
    · rw [howner p List.mem_cons_self piece hpiece, hp]
    · rw [howner q (List.mem_cons_of_mem _ List.mem_cons_self) piece' hpiece', hq]
  · intro hwrong
    refine ⟨
      fun p hp ↦ List.pairwise_of_forall_mem_list fun piece hpiece piece' hpiece' howners ↦ ?_,
      List.pairwise_iff_forall_sublist.2 fun {p q} hsub piece hpiece piece' hpiece' howners ↦ ?_⟩
    · rw [howner p hp piece hpiece, howner p hp piece' hpiece'] at howners
      cases howners.1.symm.trans howners.2
    · -- Two players are all that there are.
      have hlength := length_le_two_of_nodup h.nodup
      rw [List.length_map] at hlength
      have hplayers : [p, q] = w.players := hsub.eq_of_length_le hlength
      rw [← hplayers] at howner hwrong
      have hp : p.side = .two := (howner p List.mem_cons_self piece hpiece).symm.trans howners.1
      have hq : q.side = .one := (howner q (List.mem_cons_of_mem _ List.mem_cons_self) piece'
        hpiece').symm.trans howners.2
      refine hwrong ⟨congrArg₂ (fun a b ↦ [a, b]) hp hq, fun other hother hnil ↦ ?_⟩
      rcases List.mem_cons.1 hother with rfl | hother
      · rw [hnil] at hpiece
        cases hpiece
      · rw [← List.mem_singleton.1 hother, hnil] at hpiece'
        cases hpiece'

/-! ### Setting up a match -/

/-- Placing the pieces of a player whose side no player before it is on. -/
theorem perform_place {w : World} {before later : List Player} {p : Player}
    {result : Player × List PieceId} {registry : Registry} {placements : List Placement}
    (hplayers : w.players = before ++ p :: later) (hbefore : ∀ q ∈ before, q.side ≠ p.side)
    (hplace : p.place registry placements = .ok result) :
    (w.perform (.act p.side (.place registry placements))).1 =
      { w with players := before ++ result.1 :: later } := by
  rw [perform, onPlayer_some hplayers hbefore rfl, Player.act, hplace]

/-- Setting up a match is a run in which the first side joins first. -/
theorem exists_run_of_setup {config : MatchConfig} {w : World} (h : World.setup config = .ok w) :
    ∃ operations, seating operations = [.one, .two] ∧
      System.after perform (fresh w.board w.registry) operations = w := by
  obtain ⟨-, -, one, two, hplayers, hone, htwo⟩ := exists_place_of_setup h
  have hside : one.1.side = .one := (placed_of_place hone).side_eq
  let first : Player := .fresh .one (Side.one.frame w.board)
  let second : Player := .fresh .two (Side.two.frame w.board)
  have hfirst : (perform { w with players := [first, second] }
      (.act .one (.place w.registry config.setup))).1 =
        { w with players := [one.1, second] } :=
    perform_place (w := { w with players := [] ++ first :: [second] }) rfl (fun _ h ↦ nomatch h)
      hone
  have hothers : ∀ q ∈ [one.1], q.side ≠ second.side := by
    rw [List.forall_mem_singleton, hside]
    exact Side.noConfusion
  have hsecond : (perform { w with players := [one.1, second] }
      (.act .two (.place w.registry config.setup))).1 = { w with players := [one.1, two.1] } :=
    perform_place (w := { w with players := [one.1] ++ second :: [] }) rfl hothers htwo
  let placings : List Operation :=
    [.act .one (.place w.registry config.setup), .act .two (.place w.registry config.setup)]
  refine ⟨.addPlayer (.ofSide .one) :: .addPlayer (.ofSide .two) :: placings, rfl, ?_⟩
  calc
    _ = System.after perform { w with players := [first, second] } placings := rfl
    _ = (perform { w with players := [one.1, second] } _).1 :=
      congrArg (fun w' ↦ (perform w' _).1) hfirst
    _ = { w with players := [one.1, two.1] } := hsecond
    _ = w := by rw [← hplayers]

/-! ### Every run -/

theorem inOrder_after_iff (board : Board) (registry : Registry) (operations : List Operation) :
    let w := System.after perform (fresh board registry) operations
    w.InOrder ↔ ¬(seating operations = [.two, .one] ∧ ∀ p ∈ w.players, p.pieces ≠ []) := by
  intro w
  rw [← sides_after board registry operations]
  exact (keeps_after board registry operations).inOrder_iff

/-- The first side stays the first. -/
theorem inOrder_of_setup {config : MatchConfig} {w : World} (h : World.setup config = .ok w)
    (operations : List Operation) : (System.after perform w operations).InOrder := by
  obtain ⟨opening, hseating, hw⟩ := exists_run_of_setup h
  have horder := inOrder_after_iff w.board w.registry (opening ++ operations)
  rw [System.after_append, hw] at horder
  refine horder.2 fun ⟨hwrong, _⟩ ↦ ?_
  have hkept := seating_mono opening operations
  rw [hseating, hwrong] at hkept
  cases List.head_eq_of_cons_eq (hkept.eq_of_length rfl)

end World

/-- After every run from a world without players, the pieces of the first side come first unless the
second side has joined first and both have pieces; and they come first after every run from the
opening of a match. -/
theorem pieces_inOrder_iff (operations : List World.Operation) :
    (∀ board registry,
      let w := System.after World.perform (World.fresh board registry) operations
      w.InOrder ↔
        ¬(World.seating operations = [.two, .one] ∧ ∀ p ∈ w.players, p.pieces ≠ [])) ∧
      ∀ config w, World.setup config = .ok w →
        (System.after World.perform w operations).InOrder :=
  ⟨fun board registry ↦ World.inOrder_after_iff board registry operations,
    fun _ _ hsetup ↦ World.inOrder_of_setup hsetup operations⟩

/-- A match with one piece on each side, which does not move. -/
def MatchConfig.still : MatchConfig where
  board := ⟨8, 8⟩
  moves := .empty
  patterns := .empty
  pieces := NameMap.empty.insert "piece" ⟨1, [], [], 0⟩
  setup := [⟨"piece", .zero⟩]

theorem pieces_inOrder_still : ∃ w, World.setup .still = .ok w ∧ w.pieces.length = 2 ∧
    ∀ operations, (System.after World.perform w operations).InOrder :=
  ⟨_, rfl, rfl, fun operations ↦ (pieces_inOrder_iff operations).2 .still _ rfl⟩

/-- The pieces of the first side do not come first if the second side has joined first. -/
theorem not_pieces_inOrder : ¬∀ board registry operations,
    (System.after World.perform (World.fresh board registry) operations).InOrder := by
  intro hall
  have horder := hall ⟨8, 8, by decide, by decide⟩ .empty [.addPlayer ⟨2⟩, .addPlayer ⟨1⟩,
    .act .two (.spawn .still .zero), .act .one (.spawn .still .zero)]
  exact (List.pairwise_cons.1 horder).1 _ List.mem_cons_self ⟨rfl, rfl⟩

end Waypoints
