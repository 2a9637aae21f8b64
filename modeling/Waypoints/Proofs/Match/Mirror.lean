import Waypoints.Proofs.Evaluation.Signless
import Waypoints.Proofs.Match.Compared
import Waypoints.Proofs.Match.Frames
import Waypoints.Proofs.Match.Setup
/-!
# Both sides play the same game

The two pieces of a placement on whole coordinates see themselves at the same place, up to the signs
of zeros. So their moves and patterns are mirror images of each other if no run comes to a pole, and
they are so for every type of piece exactly if neither coordinate is a zero (`mirrors_of_setup`). At
a zero, which is positive for the first side and negative for the second, a pole tells the sides
apart (`not_mirrors`).
-/

set_option autoImplicit false
set_option relaxedAutoImplicit false

namespace Waypoints

open Number (Same)

/-- What a board binds for the same place is the same. -/
theorem Bindings.related_ofPlace {place place' : Point} (h : place.sameAs place') (board : Board)
    (anyOk : Bool) :
    (Bindings.ofPlace place board anyOk).Related Same (.ofPlace place' board anyOk) := by
  obtain ⟨hx, hy⟩ := Bool.and_eq_true_iff.1 h
  exact ⟨hx, hy, .refl _, .refl _, rfl⟩

/-- Points that are mirror images of each other on a board, up to the signs of zeros. -/
def Board.Mirrored (board : Board) (a a' : Point) : Prop :=
  a'.sameAs (board.corner - a)

/-- The moves and the patterns of two pieces are mirror images of each other in order, or both
pieces fail with the same error up to the signs of zeros in it, which is of the same class
(`ExprError.Related.errorClass_eq`). -/
structure Piece.Mirrors (board : Board) (p p' : Piece) : Prop where
  moves : Except.Agrees (fun _ ↦ False) (ExprError.Related Same)
    (List.Forall₂ (Move.Related board.Mirrored)) (p.possibleMoves board) (p'.possibleMoves board)
  patterns : Except.Agrees (fun _ ↦ False) (ExprError.Related Same)
    (List.Forall₂ (Pattern.Related board.Mirrored)) (p.possiblePatterns board)
    (p'.possiblePatterns board)

/-- The moves and the patterns of two pieces are mirror images of each other in order, or both
pieces fail with errors of the same class, whatever is in these. -/
structure Piece.Corresponds (board : Board) (p p' : Piece) : Prop where
  moves : Except.Agrees (fun _ ↦ False) (fun e e' ↦ e.errorClass = e'.errorClass)
    (List.Forall₂ (Move.Related board.Mirrored)) (p.possibleMoves board) (p'.possibleMoves board)
  patterns : Except.Agrees (fun _ ↦ False) (fun e e' ↦ e.errorClass = e'.errorClass)
    (List.Forall₂ (Pattern.Related board.Mirrored)) (p.possiblePatterns board)
    (p'.possiblePatterns board)

theorem Piece.Mirrors.corresponds {board : Board} {p p' : Piece} (h : p.Mirrors board p') :
    p.Corresponds board p' where
  moves := h.moves.mono (fun _ h ↦ h) (fun _ _ h ↦ h.errorClass_eq) fun _ _ h ↦ h
  patterns := h.patterns.mono (fun _ h ↦ h) (fun _ _ h ↦ h.errorClass_eq) fun _ _ h ↦ h

/-- No evaluation for the piece comes to a pole. -/
structure Piece.AvoidsPoles (board : Board) (p : Piece) : Prop where
  moves : ∀ kind ∈ p.kind.moves, ∀ f ∈ kind.formulas, ∀ q,
    Visits (.start f.expr (p.bindings board false)) q → ¬q.IsPole
  patterns : ∀ kind ∈ p.kind.patterns, ∀ f ∈ kind.formulas, ∀ q,
    Visits (.start f.expr (p.bindings board true)) q → ¬q.IsPole

variable {board : Board} {kind : PieceType} {place : Point} {p p' : Piece}

/-! ### Counterparts -/

/-- The pieces of a placement on whole coordinates see themselves at the same place. -/
theorem sameAs_playerPosition (hp : p.Stands .one board kind place)
    (hp' : p'.Stands .two board kind place) (hplace : place.Whole) :
    p.playerPosition.sameAs p'.playerPosition := by
  rw [hp.playerPosition_eq, hp'.playerPosition_eq]
  obtain ⟨hx, hy⟩ := Bool.and_eq_true_iff.1 (Frame.sameAs_toPlayer_toWorld .one board hplace)
  obtain ⟨hx', hy'⟩ := Bool.and_eq_true_iff.1 (Frame.sameAs_toPlayer_toWorld .two board hplace)
  exact Bool.and_eq_true_iff.2 ⟨Same.trans hx (Same.symm hx'), Same.trans hy (Same.symm hy')⟩

/-- A piece without a zero coordinate sees itself exactly where it is placed. -/
theorem Piece.Stands.playerPosition_eq_place {side : Side} (hp : p.Stands side board kind place)
    (hplace : place.Whole) (hx : (place.x == 0) = false) (hy : (place.y == 0) = false) :
    p.playerPosition = place := by
  rw [hp.playerPosition_eq]
  have hsame := Frame.sameAs_toPlayer_toWorld side board hplace
  obtain ⟨hsamex, hsamey⟩ := Bool.and_eq_true_iff.1 hsame
  exact (congrArg₂ Point.mk ((Same.symm hsamex).eq_of_ne_zero hx)
    ((Same.symm hsamey).eq_of_ne_zero hy)).symm

/-- Comparisons of the evaluations for two pieces of one type show that they are mirror images.

Assumes: they excuse no fault, and relate only numbers that are the same. -/
theorem mirrors_of_lawful (hp : p.Stands .one board kind place)
    (hp' : p'.Stands .two board kind place) {C : Bool → Comparison}
    (hlawful : ∀ anyOk, (C anyOk).Lawful) (hslack : ∀ anyOk, (C anyOk).slack = 0)
    (hleft : ∀ anyOk, (C anyOk).left = p.bindings board anyOk)
    (hright : ∀ anyOk, (C anyOk).right = p'.bindings board anyOk)
    (hexcused : ∀ anyOk fault, ¬(C anyOk).excused fault)
    (hsame : ∀ anyOk a b, (C anyOk).numbers a b → Same a b)
    (hmoves : ∀ kind ∈ p.kind.moves, ∀ f ∈ kind.formulas,
      (C false).sites (.start f.expr (C false).left))
    (hpatterns : ∀ kind ∈ p.kind.patterns, ∀ f ∈ kind.formulas,
      (C true).sites (.start f.expr (C true).left)) : p.Mirrors board p' := by
  have hkind : p'.kind = p.kind := hp'.kind.trans hp.kind.symm
  have hcompares (anyOk : Bool) : (C anyOk).Compares p p' board anyOk board.Mirrored :=
    { lawful := hlawful anyOk
      slack := hslack anyOk
      left := hleft anyOk
      right := hright anyOk
      toWorld := fun ⟨hx, hy⟩ ↦ by
        rw [hp.frame, hp'.frame]
        exact sameAs_mirror board
          (Bool.and_eq_true_iff.2 ⟨hsame anyOk _ _ hx, hsame anyOk _ _ hy⟩) }
  have hnone (anyOk : Bool) (e : ExprError) : (C anyOk).Excuses e → False :=
    fun ⟨fault, _, hfault⟩ ↦ hexcused anyOk fault hfault
  have hbad (anyOk : Bool) (e e' : ExprError) :
      e.Related (C anyOk).numbers e' → e.Related Same e' :=
    ExprError.Related.mono (hsame anyOk)
  exact {
    moves := ((hcompares false).agree_possibleMoves hkind hmoves).mono (hnone false) (hbad false)
      fun _ _ hall ↦ hall
    patterns := ((hcompares true).agree_possiblePatterns hkind hpatterns).mono (hnone true)
      (hbad true) fun _ _ hall ↦ hall }

/-- The pieces of a placement on whole coordinates are mirror images if no run comes to a pole. -/
theorem mirrors_of_avoidsPoles (hp : p.Stands .one board kind place)
    (hp' : p'.Stands .two board kind place) (hplace : place.Whole)
    (havoids : p.AvoidsPoles board) : p.Mirrors board p' := by
  have hbindings (anyOk : Bool) := Bindings.related_ofPlace
    (sameAs_playerPosition hp hp' hplace) board anyOk
  exact mirrors_of_lawful hp hp'
    (C := fun anyOk ↦ .signless (p.bindings board anyOk) (p'.bindings board anyOk))
    (fun anyOk ↦ Comparison.signless_lawful (hbindings anyOk)) (fun _ ↦ rfl) (fun _ ↦ rfl)
    (fun _ ↦ rfl) (fun _ _ ↦ not_false) (fun _ _ _ hab ↦ hab) havoids.moves havoids.patterns

/-- The pieces of a placement on whole coordinates are mirror images if their formulas have no
power in them. -/
theorem mirrors_of_not_usesPower (hp : p.Stands .one board kind place)
    (hp' : p'.Stands .two board kind place) (hplace : place.Whole)
    (hmoves : ∀ type ∈ p.kind.moves, ∀ f ∈ type.formulas, ¬f.expr.UsesPower)
    (hpatterns : ∀ type ∈ p.kind.patterns, ∀ f ∈ type.formulas, ¬f.expr.UsesPower) :
    p.Mirrors board p' :=
  mirrors_of_avoidsPoles hp hp' hplace
    ⟨fun type htype f hf _ hvisits hpole ↦ hmoves type htype f hf (hvisits.usesPower hpole),
      fun type htype f hf _ hvisits hpole ↦ hpatterns type htype f hf (hvisits.usesPower hpole)⟩

/-- The pieces of a placement on whole coordinates are mirror images if none of these is a zero. -/
theorem mirrors_of_ne_zero (hp : p.Stands .one board kind place)
    (hp' : p'.Stands .two board kind place) (hplace : place.Whole)
    (hx : (place.x == 0) = false) (hy : (place.y == 0) = false) : p.Mirrors board p' := by
  have hright (anyOk : Bool) : p.bindings board anyOk = p'.bindings board anyOk := by
    unfold Piece.bindings
    rw [hp.playerPosition_eq_place hplace hx hy, hp'.playerPosition_eq_place hplace hx hy]
  exact mirrors_of_lawful hp hp' (C := fun anyOk ↦ .identical (p.bindings board anyOk))
    (fun _ ↦ Comparison.identical_lawful _) (fun _ ↦ rfl) (fun _ ↦ rfl) hright
    (fun _ _ ↦ not_false) (fun _ _ _ hab ↦ .of_eq hab) (fun _ _ _ _ ↦ trivial)
    fun _ _ _ _ ↦ trivial

/-! ### Poles at zeros -/

section Poles

variable {word other : String} {f : Formula}

/-- A formula with a pole. Assumes: its words are words, and none is that of a range. -/
theorem exists_poleFormula (hwords : ∀ t ∈ poleTokens word other, t.IsWord)
    (hword : word ≠ "range") (hother : other ≠ "range") :
    ∃ f : Formula, f.expr = poleExpr word other :=
  ⟨⟨_, _, Expr.parse_spell hwords (phrase_poleExpr hword hother) (by decide)⟩, rfl⟩

/-- At a pole a piece moves to infinity. -/
theorem possibleMoves_of_pole {z y : Float} {s : Float.Model.UnpackedFloat.Sign}
    (hf : f.expr = poleExpr word other) (hkind : p.kind = .ofFormula f)
    (hword : (p.bindings board false).find word = .ok (.number z))
    (hzero : z.toModel.unpack = .zero s)
    (hother : (p.bindings board false).find other = .ok (.number y)) :
    p.possibleMoves board =
      .ok [⟨.ofFormula f, p.id, [p.frame.toWorld ⟨Number.infinity s, y⟩]⟩] := by
  have hrelative : f.relativePaths (p.bindings board false) =
      .ok [[⟨Number.infinity s, y⟩]] := by
    unfold Formula.relativePaths
    rw [hf, evaluate_poleExpr hword hzero hother]
    rfl
  exact possibleMoves_ofFormula board f hkind hrelative

/-- The infinities of both signs are no mirror images in the frames of both sides. -/
theorem not_same_mirror_infinity {c : Float} (hc : c.isFinite) :
    ¬Same (c + Facing.against.toFloat * Number.infinity .negative)
      (c - (0 + Facing.along.toFloat * Number.infinity .positive)) := by
  have hzero : (0 : Float).isFinite := by decide
  have hneg (s : Float.Model.UnpackedFloat.Sign) :
      c + -Number.infinity s = Number.infinity (-s) := by
    rw [Number.neg_infinity, Number.add_infinity hc]
  rw [Facing.toFloat_mul, Facing.toFloat_mul, Number.sub_eq_add_neg, Number.add_infinity hzero,
    hneg, hneg]
  exact Number.not_same_infinity

/-- At zeros of both signs the infinities to which two pieces move are no mirror images. -/
theorem not_corresponds_of_pole {z z' y y' : Float} (hp : p.Stands .one board (.ofFormula f) place)
    (hp' : p'.Stands .two board (.ofFormula f) place) (hf : f.expr = poleExpr word other)
    (hword : (p.bindings board false).find word = .ok (.number z))
    (hword' : (p'.bindings board false).find word = .ok (.number z'))
    (hzero : z.toModel.unpack = .zero .positive) (hzero' : z'.toModel.unpack = .zero .negative)
    (hother : (p.bindings board false).find other = .ok (.number y))
    (hother' : (p'.bindings board false).find other = .ok (.number y')) :
    ¬p.Corresponds board p' := by
  intro hcorresponds
  have hmoves := hcorresponds.moves
  rw [possibleMoves_of_pole hf hp.kind hword hzero hother,
    possibleMoves_of_pole hf hp'.kind hword' hzero' hother', hp.frame, hp'.frame] at hmoves
  obtain ⟨-, hpath⟩ := (List.forall₂_cons.1 hmoves).1
  have hpoint := (List.forall₂_cons.1 hpath).1
  have hsame := (Bool.and_eq_true_iff.1 hpoint).1
  exact not_same_mirror_infinity (Side.two.isFinite_origin board).1 hsame

/-- What the words for the position are bound to. -/
theorem find_position (p : Piece) (board : Board) (anyOk : Bool) :
    (p.bindings board anyOk).find "x" = .ok (.number p.playerPosition.x) ∧
      (p.bindings board anyOk).find "y" = .ok (.number p.playerPosition.y) :=
  ⟨rfl, rfl⟩

/-- At a place with a zero coordinate some formula tells the sides apart. -/
theorem exists_not_corresponds (board : Board) (place : Point)
    (hzero : place.x == 0 ∨ place.y == 0) : ∃ f : Formula, ∀ {p p' : Piece},
      p.Stands .one board (.ofFormula f) place → p'.Stands .two board (.ofFormula f) place →
        ¬p.Corresponds board p' := by
  obtain ⟨honex, honey⟩ := Frame.unpack_toPlayer_toWorld .one board (p := place)
  obtain ⟨htwox, htwoy⟩ := Frame.unpack_toPlayer_toWorld .two board (p := place)
  rcases hzero with hx | hy
  · obtain ⟨f, hf⟩ : ∃ f : Formula, f.expr = poleExpr "x" "y" :=
      exists_poleFormula (by decide) (by decide) (by decide)
    refine ⟨f, fun {p p'} hp hp' ↦ ?_⟩
    obtain ⟨hword, hother⟩ := find_position p board false
    obtain ⟨hword', hother'⟩ := find_position p' board false
    refine not_corresponds_of_pole hp hp' hf hword hword' ?_ ?_ hother hother'
    · rw [hp.playerPosition_eq]
      exact honex hx
    · rw [hp'.playerPosition_eq]
      exact htwox hx
  · obtain ⟨f, hf⟩ : ∃ f : Formula, f.expr = poleExpr "y" "x" :=
      exists_poleFormula (by decide) (by decide) (by decide)
    refine ⟨f, fun {p p'} hp hp' ↦ ?_⟩
    obtain ⟨hother, hword⟩ := find_position p board false
    obtain ⟨hother', hword'⟩ := find_position p' board false
    refine not_corresponds_of_pole hp hp' hf hword hword' ?_ ?_ hother hother'
    · rw [hp.playerPosition_eq]
      exact honey hy
    · rw [hp'.playerPosition_eq]
      exact htwoy hy

end Poles

/-! ### Matches -/

/-- A placement of an accepted match on whole coordinates has a piece of one type on either side.
The two are mirror images if no evaluation for the first comes to a pole, and are so whatever their
type exactly if neither coordinate is a zero; nor do they correspond whatever their type else. -/
theorem mirrors_of_setup {config : MatchConfig} {w : World} (h : World.setup config = .ok w)
    {i : UInt32} (hi : i.toNat < config.setup.length)
    (hplace : config.setup[i.toNat].place.Whole) :
    ∃ one two, w.piece? ⟨.one, i⟩ = some one ∧ w.piece? ⟨.two, i⟩ = some two ∧
      two.kind = one.kind ∧ (one.AvoidsPoles w.board → one.Mirrors w.board two) ∧
      ((∀ kind, { one with kind := kind }.Mirrors w.board { two with kind := kind }) ↔
        (config.setup[i.toNat].place.x == 0) = false ∧
          (config.setup[i.toNat].place.y == 0) = false) ∧
      ((∀ kind, { one with kind := kind }.Corresponds w.board { two with kind := kind }) ↔
        (config.setup[i.toNat].place.x == 0) = false ∧
          (config.setup[i.toNat].place.y == 0) = false) := by
  obtain ⟨kind, hpieces⟩ := pieces_of_setup h hi
  obtain ⟨one, hone, hstands⟩ := hpieces .one
  obtain ⟨two, htwo, hstands'⟩ := hpieces .two
  have hmirrors (hne : (config.setup[i.toNat].place.x == 0) = false ∧
      (config.setup[i.toNat].place.y == 0) = false) (kind : PieceType) :
      { one with kind := kind }.Mirrors w.board { two with kind := kind } :=
    mirrors_of_ne_zero (hstands.withKind kind) (hstands'.withKind kind) hplace hne.1 hne.2
  have hzero (hall : ∀ kind,
      { one with kind := kind }.Corresponds w.board { two with kind := kind }) :
      (config.setup[i.toNat].place.x == 0) = false ∧
        (config.setup[i.toNat].place.y == 0) = false := by
    by_contra hzero
    rw [not_and_or, Bool.not_eq_false, Bool.not_eq_false] at hzero
    obtain ⟨f, hf⟩ := exists_not_corresponds w.board _ hzero
    exact hf (hstands.withKind _) (hstands'.withKind _) (hall (.ofFormula f))
  exact ⟨one, two, hone, htwo, hstands'.kind.trans hstands.kind.symm,
    mirrors_of_avoidsPoles hstands hstands' hplace,
    ⟨fun hall ↦ hzero fun kind ↦ (hall kind).corresponds, hmirrors⟩,
    ⟨hzero, fun hne kind ↦ (hmirrors hne kind).corresponds⟩⟩

/-- On the third column and the fourth row even pieces that move by a pole are mirror images. -/
theorem mirrors_poleExpr : ∃ f w one two, f.expr = poleExpr "x" "y" ∧
    World.setup (.ofFormula ⟨8, 8, by decide, by decide⟩ f ⟨2, 3⟩) = .ok w ∧
      w.piece? ⟨.one, 0⟩ = some one ∧ w.piece? ⟨.two, 0⟩ = some two ∧
        one.Mirrors w.board two := by
  obtain ⟨f, hf⟩ : ∃ f : Formula, f.expr = poleExpr "x" "y" :=
    exists_poleFormula (by decide) (by decide) (by decide)
  obtain ⟨w, hsetup, -⟩ := setup_ofFormula ⟨8, 8, by decide, by decide⟩ f ⟨2, 3⟩
  have hwhole : (⟨2, 3⟩ : Point).Whole := ⟨⟨2, by decide, by decide⟩, 3, by decide, by decide⟩
  have hx : ((2 : Float) == 0) = false := by decide
  have hy : ((3 : Float) == 0) = false := by decide
  obtain ⟨one, two, hone, htwo, hkind, -, hmirrors⟩ :=
    mirrors_of_setup hsetup (show (0 : UInt32).toNat < 1 from Nat.zero_lt_one) hwhole
  have htype : { two with kind := one.kind } = two := by rw [← hkind]
  have hown := hmirrors.1.2 ⟨hx, hy⟩ one.kind
  rw [htype] at hown
  exact ⟨f, w, one, two, hf, hsetup, hone, htwo, hown⟩

/-- Not all pieces of placements on whole coordinates have mirror images for their moves and their
patterns or fail with errors of the same class. -/
theorem not_mirrors : ¬∀ config w, World.setup config = .ok w →
    (∀ placement ∈ config.setup, placement.place.Whole) → ∀ i : UInt32,
      i.toNat < config.setup.length → ∀ one two, w.piece? ⟨.one, i⟩ = some one →
        w.piece? ⟨.two, i⟩ = some two → one.Corresponds w.board two := by
  intro hall
  obtain ⟨f, hf⟩ := exists_not_corresponds ⟨8, 8, by decide, by decide⟩ ⟨0, 0⟩ (.inl rfl)
  obtain ⟨w, hsetup, hboard, hpieces⟩ := setup_ofFormula ⟨8, 8, by decide, by decide⟩ f ⟨0, 0⟩
  obtain ⟨one, hone, hstands⟩ := hpieces .one
  obtain ⟨two, htwo, hstands'⟩ := hpieces .two
  have hwhole : (⟨0, 0⟩ : Point).Whole := ⟨⟨0, by decide, by decide⟩, 0, by decide, by decide⟩
  have hcorresponds := hall _ w hsetup (List.forall_mem_singleton.2 hwhole) 0 Nat.zero_lt_one one
    two hone htwo
  rw [hboard] at hcorresponds
  exact hf hstands hstands' hcorresponds

end Waypoints
