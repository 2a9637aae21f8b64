import Waypoints.Proofs.Match.Roster
/-!
# The numbers of pieces

A player numbers its pieces by a 32-bit word that starts over at zero after its last value. So the
pieces given to a player have different identifiers exactly as long as there are at most `2 ^ 32` of
them, however many are taken away, and so long an identifier is that of one piece
(`ids_distinct_iff`). The next piece has the identifier of the first (`not_ids_distinct`).
-/

set_option autoImplicit false
set_option relaxedAutoImplicit false

namespace Waypoints

/-! ### Lists with different keys -/

section Keys

variable {α β : Type} [DecidableEq β] {f : α → β} {l : List α}

/-- A key is found at the one place where it stands. -/
theorem find?_key_eq_some (h : (l.map f).Nodup) (b : β) (a : α) :
    l.find? (f · == b) = some a ↔ a ∈ l ∧ f a = b := by
  constructor
  · intro hfind
    have hb : (f a == b) = true := (List.find?_eq_some_iff_append.1 hfind).1
    exact ⟨List.mem_of_find?_eq_some hfind, beq_iff_eq.1 hb⟩
  · rintro ⟨ha, rfl⟩
    induction l with
    | nil => cases ha
    | cons c l ih =>
      obtain ⟨hc, hl⟩ := List.nodup_cons.1 h
      rcases List.mem_cons.1 ha with rfl | ha
      · exact List.find?_cons_of_pos (beq_self_eq_true _)
      · have hne : f c ≠ f a := fun heq ↦ hc (heq ▸ List.mem_map_of_mem ha)
        rw [List.find?_cons_of_neg (by simpa using hne)]
        exact ih hl ha

theorem eraseP_key_eq_filter (h : (l.map f).Nodup) (b : β) :
    l.eraseP (f · == b) = l.filter (f · != b) := by
  induction l with
  | nil => rfl
  | cons c l ih =>
    obtain ⟨hc, hl⟩ := List.nodup_cons.1 h
    by_cases hb : f c = b
    · have hrest : l.filter (f · != b) = l := by
        refine List.filter_eq_self.2 fun a ha ↦ bne_iff_ne.2 fun heq ↦ hc ?_
        rw [hb, ← heq]
        exact List.mem_map_of_mem ha
      rw [List.eraseP_cons_of_pos (by simpa using hb), List.filter_cons_of_neg (by simpa using hb),
        hrest]
    · rw [List.eraseP_cons_of_neg (by simpa using hb), List.filter_cons_of_pos (by simpa using hb),
        ih hl]

theorem updateFirst_key_eq_map (h : (l.map f).Nodup) (b : β) (g : α → α) :
    updateFirst (f · == b) g l = l.map fun a ↦ if f a = b then g a else a := by
  induction l with
  | nil => rfl
  | cons c l ih =>
    obtain ⟨hc, hl⟩ := List.nodup_cons.1 h
    rw [updateFirst, List.map_cons]
    by_cases hb : f c = b
    · have hrest : l.map (fun a ↦ if f a = b then g a else a) = l := by
        refine (List.map_congr_left fun a ha ↦ if_neg fun heq ↦ hc ?_).trans l.map_id
        rw [hb, ← heq]
        exact List.mem_map_of_mem ha
      rw [if_pos (beq_iff_eq.2 hb), if_pos hb, hrest]
    · rw [if_neg (by simpa using hb), if_neg hb, ih hl]

end Keys

/-- Where no identifier stands twice in a roster, those struck out are those that are gone. -/
theorem strikeOut_eq_filter {roster : List (PieceId × PieceType)} (h : (roster.map (·.1)).Nodup)
    (gone : List PieceId) : strikeOut roster gone = roster.filter (·.1 ∉ gone) := by
  induction gone generalizing roster with
  | nil => exact (List.filter_eq_self.2 fun _ _ ↦ by simp).symm
  | cons id gone ih =>
    have herase : roster.eraseP (·.1 == id) = roster.filter (·.1 != id) := eraseP_key_eq_filter h id
    have hrest : ((roster.filter (·.1 != id)).map (·.1)).Nodup :=
      h.sublist (List.filter_sublist.map _)
    rw [strikeOut_cons, herase, ih hrest, List.filter_filter]
    refine List.filter_congr fun e _ ↦ ?_
    by_cases he : e.1 = id <;> simp [he]

/-! ### Numbers -/

/-- The first identifiers of a side are different exactly if the numbers do not start over. -/
theorem nodup_ids_iff (side : Side) (n : Nat) :
    ((List.range n).map fun k ↦ (⟨side, UInt32.ofNat k⟩ : PieceId)).Nodup ↔ n ≤ UInt32.size := by
  constructor
  · intro h
    by_contra hlt
    have hsize : UInt32.size < n := Nat.not_le.1 hlt
    -- The number after the last word is zero again.
    have hzero : UInt32.ofNat 0 = UInt32.ofNat UInt32.size := by decide
    have heq := List.inj_on_of_nodup_map h (List.mem_range.2 (Nat.zero_lt_of_lt hsize))
      (List.mem_range.2 hsize) (congrArg (PieceId.mk side) hzero)
    exact absurd heq (by decide)
  · intro h
    refine List.Nodup.map_on (fun k hk k' hk' heq ↦ ?_) List.nodup_range
    have hnat : k % UInt32.size = k' % UInt32.size :=
      congrArg (fun id : PieceId ↦ id.index.toNat) heq
    have hsmall {m : Nat} (hm : m ∈ List.range n) : m % UInt32.size = m :=
      Nat.mod_eq_of_lt (Nat.lt_of_lt_of_le (List.mem_range.1 hm) h)
    rwa [hsmall hk, hsmall hk'] at hnat

/-! ### Addresses -/

/-- Every identifier is that of one piece: the one piece of the player that was given it, as long as
it is not taken away. -/
structure Player.Addresses (born : List (PieceId × PieceType)) (lost : List PieceId) (p : Player) :
    Prop where
  /-- The piece that is found is the only one with the identifier. -/
  piece?_eq_some : ∀ id piece, p.piece? id = some piece ↔ piece ∈ p.pieces ∧ piece.id = id
  /-- It is what was given, and nothing is found that was taken away. -/
  exists_piece?_eq_some : ∀ id kind,
    (∃ piece, p.piece? id = some piece ∧ piece.kind = kind) ↔ (id, kind) ∈ born ∧ id ∉ lost
  /-- A change of the piece changes no other. -/
  updatePiece_eq : ∀ id f, p.updatePiece id f =
    { p with pieces := p.pieces.map fun piece ↦ if piece.id = id then f piece else piece }
  /-- Taking the piece away takes no other. -/
  remove?_eq : ∀ id, p.remove? id = (p.piece? id).map fun piece ↦
    ({ p with pieces := p.pieces.filter (·.id != id) }, piece)

namespace Player

variable {p : Player} {born : List (PieceId × PieceType)} {lost : List PieceId}

theorem Accounts.nodup_born_iff (h : p.Accounts born lost) :
    (born.map (·.1)).Nodup ↔ born.length ≤ UInt32.size := by
  rw [h.ids_eq]
  exact nodup_ids_iff p.side born.length

/-- As long as the numbers do not start over, identifiers are those of single pieces. -/
theorem Accounts.addresses (h : p.Accounts born lost) (hlength : born.length ≤ UInt32.size) :
    p.Addresses born lost := by
  have hborn := h.nodup_born_iff.2 hlength
  have hentries : p.pieces.map Piece.entry = born.filter (·.1 ∉ lost) :=
    h.pieces_eq.trans (strikeOut_eq_filter hborn lost)
  have hids : (p.pieces.map (·.id)).Nodup := by
    have hmap : (p.pieces.map Piece.entry).map (·.1) = p.pieces.map (·.id) := List.map_map ..
    rw [← hmap, hentries]
    exact hborn.sublist (List.filter_sublist.map _)
  refine ⟨fun id piece ↦ find?_key_eq_some hids id piece, fun id kind ↦ ?_, fun id f ↦ ?_,
    fun id ↦ ?_⟩
  · have hmem : (id, kind) ∈ born ∧ id ∉ lost ↔ (id, kind) ∈ p.pieces.map Piece.entry := by
      rw [hentries, List.mem_filter, decide_eq_true_iff]
    rw [hmem, List.mem_map]
    refine exists_congr fun piece ↦ ?_
    rw [show p.piece? id = some piece ↔ _ from find?_key_eq_some hids id piece, and_assoc]
    exact and_congr_right fun _ ↦ by rw [Piece.entry, Prod.mk.injEq]
  · rw [updatePiece, updateFirst_key_eq_map hids]
  · rw [remove?_eq, eraseP_key_eq_filter hids]

end Player

/-! ### Every run -/

/-- The pieces that a player is given in a run get identifiers that count from zero and start over
after `2 ^ 32` of them. So all of them are different exactly if there are no more than that, and so
long every identifier is that of the one piece that was given it. -/
theorem ids_distinct_iff (board : Board) (side : Side) (frame : Frame)
    (actions : List Player.Action) :
    let start := Player.fresh side frame
    let p := System.after (Player.act board) start actions
    let trace := System.trace (Player.act board) start actions
    let ids := (Player.born trace).map (·.1)
    ids = (List.range ids.length).map (fun n ↦ ⟨side, UInt32.ofNat n⟩) ∧
      (ids.Nodup ↔ ids.length ≤ UInt32.size) ∧
      (ids.length ≤ UInt32.size → p.Addresses (Player.born trace) (Player.lost trace)) := by
  intro start p trace ids
  have haccounts : p.Accounts (Player.born trace) (Player.lost trace) :=
    Player.accounts_after board side frame actions
  have hside : p.side = side := Player.side_after board start actions
  have hlength : ids.length = (Player.born trace).length := List.length_map _
  rw [hlength]
  refine ⟨?_, haccounts.nodup_born_iff, haccounts.addresses⟩
  rw [← hside]
  exact haccounts.ids_eq

/-- Two pieces, the first of which is taken away before a third comes. -/
def replacement : List Player.Action :=
  [.spawn .still .zero, .spawn .still .zero, .remove ⟨.one, 0⟩, .spawn .still .zero]

theorem ids_distinct_replacement :
    let board : Board := ⟨8, 8, by decide, by decide⟩
    let start := Player.fresh .one .world
    let trace := System.trace (Player.act board) start replacement
    (Player.born trace).map (·.1.index) = [0, 1, 2] ∧
      (System.after (Player.act board) start replacement).Addresses (Player.born trace)
        (Player.lost trace) := by
  intro board start trace
  exact ⟨rfl, (ids_distinct_iff board .one .world replacement).2.2 (by decide)⟩

/-- Pieces that are given one after another, each taken away before the next. -/
def churn (side : Side) (numbers : List Nat) : List Player.Action :=
  numbers.flatMap fun n ↦ [.spawn .still .zero, .remove ⟨side, UInt32.ofNat n⟩]

theorem length_born_churn (board : Board) (side : Side) (p : Player) (numbers : List Nat) :
    (Player.born (System.trace (Player.act board) p (churn side numbers))).length =
      numbers.length := by
  induction numbers generalizing p with
  | nil => rfl
  | cons n numbers ih =>
    exact congrArg Nat.succ (ih ((p.act board (.spawn .still .zero)).1.act board
      (.remove ⟨side, UInt32.ofNat n⟩)).1)

/-- Not all pieces that a player is given have different identifiers, even if it never holds two at
a time: after `2 ^ 32` of them the next one gets the identifier of the first. -/
theorem not_ids_distinct : ¬∀ board side frame actions,
    ((Player.born (System.trace (Player.act board) (Player.fresh side frame) actions)).map
      (·.1)).Nodup := by
  intro hall
  let board : Board := ⟨8, 8, by decide, by decide⟩
  let actions := churn .one (List.range (UInt32.size + 1))
  have hnodup := hall board .one .world actions
  have haccounts := Player.accounts_after board .one .world actions
  rw [haccounts.nodup_born_iff, length_born_churn, List.length_range] at hnodup
  exact Nat.not_succ_le_self _ hnodup

end Waypoints
