import Waypoints.Proofs.Command.Previews
import Waypoints.Proofs.Content.Coherence
import Waypoints.Proofs.Match.Actions
import Waypoints.Proofs.Match.Generation
import Waypoints.Proofs.Match.Opening
import Waypoints.Proofs.Match.Wildcards
/-!
# What a check covers

A check evaluates the expressions of the pieces in the opening position, and passes just if all of
these evaluations succeed (`passes_iff`). An expression of a type that no placed type of piece lists
is not evaluated, whatever it is: a check that passes covers all expressions of a match just if
there is none like that (`check_covers_iff`).
-/

set_option autoImplicit false
set_option relaxedAutoImplicit false

namespace Waypoints

/-! ### Evaluations -/

/-- An expression of a type, as it is evaluated for a piece. -/
structure Evaluation where
  piece : Piece
  /-- The name of the type. -/
  type : String
  formula : Formula
  /-- Whether wildcards may be used. -/
  anyOk : Bool

/-- What an evaluation gives on a board. -/
def Evaluation.result (e : Evaluation) (board : Board) : Except ExprError (List Path) :=
  e.formula.relativePaths (e.piece.bindings board e.anyOk)

/-- The move types that a piece type lists, or the pattern types, which may use wildcards: the name
of each, and its formulas. -/
def PieceType.listed (kind : PieceType) : Bool → List (String × List Formula)
  | false => kind.moves.map fun m ↦ (m.name, m.formulas)
  | true => kind.patterns.map fun t ↦ (t.name, t.formulas)

/-- The evaluations for a piece: those of its moves and then those of its patterns. -/
def Piece.evaluations (p : Piece) : List Evaluation :=
  [false, true].flatMap fun anyOk ↦ (p.kind.listed anyOk).flatMap fun type ↦
    type.2.map (⟨p, type.1, ·, anyOk⟩)

/-- The evaluations for all pieces of a world. -/
def World.evaluations (w : World) : List Evaluation :=
  w.pieces.flatMap Piece.evaluations

theorem World.mem_evaluations {w : World} {e : Evaluation} : e ∈ w.evaluations ↔
    e.piece ∈ w.pieces ∧
      ∃ formulas, (e.type, formulas) ∈ e.piece.kind.listed e.anyOk ∧ e.formula ∈ formulas := by
  unfold evaluations Piece.evaluations
  simp only [List.mem_flatMap, List.mem_map]
  constructor
  · rintro ⟨p, hp, anyOk, -, ⟨type, formulas⟩, htype, f, hf, rfl⟩
    exact ⟨hp, formulas, htype, hf⟩
  · rintro ⟨hp, formulas, htype, hf⟩
    exact ⟨e.piece, hp, e.anyOk, by simp, (e.type, formulas), htype, e.formula, hf, rfl⟩

/-! ### What is evaluated -/

/-- A piece's choices fail as its first evaluation that fails. -/
theorem reports_choices (board : Board) (p : Piece) : (p.choices board).Reports
    (p.evaluations.flatMap fun e ↦ (e.result board).errors) fun _ ↦ True := by
  have hpatterns (moves : List Move) : ((moves, ·) <$> p.possiblePatterns board).Reports
      (failures (p.patternRuns board)) fun _ ↦ True :=
    (reports_possiblePatterns p board).map fun _ _ ↦ trivial
  refine ((reports_possibleMoves p board).bind fun moves _ ↦ hpatterns moves).congr ?_
  simp only [failures, Piece.moveRuns, Piece.patternRuns, Piece.runs, Piece.evaluations,
    PieceType.listed, Evaluation.result, List.flatMap_cons, List.flatMap_nil, List.append_nil,
    List.flatMap_append, List.flatMap_assoc, List.flatMap_map]

theorem reports_counts (w : World) : w.counts.Reports
    (w.evaluations.flatMap fun e ↦ (e.result w.board).errors) fun _ ↦ True := by
  have hchoices := Except.Reports.mapM fun p (_ : p ∈ w.pieces) ↦ reports_choices w.board p
  refine (hchoices.map fun _ _ ↦ trivial).congr ?_
  rw [World.evaluations, List.flatMap_assoc]

/-- The check of a match passes. -/
def MatchConfig.Passes (config : MatchConfig) : Prop :=
  ∃ content opening, config.check = .passed content opening

/-- A check passes just if the match can be set up and all evaluations in its opening position
succeed. -/
theorem passes_iff (config : MatchConfig) : config.Passes ↔ ∃ w, World.setup config = .ok w ∧
    ∀ e ∈ w.evaluations, ∃ paths, e.result w.board = .ok paths := by
  have hopening : config.Passes ↔ ∃ opening, config.openingCounts = .ok opening := by
    rw [MatchConfig.Passes, exists_comm]
    exact exists_congr (check_eq_passed_iff config)
  rw [hopening, MatchConfig.openingCounts]
  have hcounts (w : World) : (∀ e ∈ w.evaluations, ∃ paths, e.result w.board = .ok paths) ↔
      ∃ opening, w.counts = .ok opening := by
    rw [(reports_counts w).exists_ok_iff, List.flatMap_eq_nil_iff]
    exact forall₂_congr fun e _ ↦ (Except.reports_errors _).exists_ok_iff
  cases World.setup config with
  | error e =>
    constructor
    · rintro ⟨opening, h⟩
      cases h
    · rintro ⟨w, h, -⟩
      cases h
  | ok w =>
    change (∃ opening, w.counts.mapError MatchError.expr = .ok opening) ↔ _
    simp only [Except.ok.injEq, exists_eq_left', hcounts]
    cases w.counts with
    | error e =>
      constructor <;>
      · rintro ⟨opening, h⟩
        cases h
    | ok opening => exact ⟨fun _ ↦ ⟨opening, rfl⟩, fun _ ↦ ⟨opening, rfl⟩⟩

/-! ### What is covered -/

/-- An expression of a type is evaluated for a piece, successfully. -/
def World.Evaluates (w : World) (type source : String) (anyOk : Bool) : Prop :=
  ∃ e ∈ w.evaluations, e.type = type ∧ e.formula.source = source ∧ e.anyOk = anyOk ∧
    ∃ paths, e.result w.board = .ok paths

/-- Every expression of a move type is evaluated without wildcards, and every one of a pattern type
with them. -/
structure World.Covers (w : World) (config : MatchConfig) : Prop where
  moves : ∀ name params, config.moves.find? name = some params →
    ∀ source ∈ params.waypoints, w.Evaluates name source false
  patterns : ∀ name params, config.patterns.find? name = some params →
    ∀ source ∈ params.waypoints, w.Evaluates name source true

/-- All expressions of a match are evaluated in its opening position. -/
def MatchConfig.Covered (config : MatchConfig) : Prop :=
  ∃ w, World.setup config = .ok w ∧ w.Covers config

/-- A type of piece that is placed has a type among those that it lists. -/
def MatchConfig.Places (config : MatchConfig) (listed : PieceParams → List String)
    (name : String) : Prop :=
  ∃ placement ∈ config.setup, ∃ piece, config.pieces.find? placement.name = some piece ∧
    name ∈ listed piece

/-- Every type with an expression is listed by a type of piece that is placed. -/
structure MatchConfig.PlacesAll (config : MatchConfig) : Prop where
  moves : ∀ name params, config.moves.find? name = some params → params.waypoints ≠ [] →
    config.Places (·.moves) name
  patterns : ∀ name params, config.patterns.find? name = some params → params.waypoints ≠ [] →
    config.Places (·.patterns) name

/-! ### What is listed -/

/-- The names of the types of a sort that a description lists. -/
def PieceParams.listed (params : PieceParams) : Bool → List String
  | false => params.moves
  | true => params.patterns

/-- The expressions of a type of a sort. -/
def MatchConfig.sources? (config : MatchConfig) (name : String) : Bool → Option (List String)
  | false => (config.moves.find? name).map (·.waypoints)
  | true => (config.patterns.find? name).map (·.waypoints)

section Listing

variable {config : MatchConfig} {r : Registry} {params : PieceParams} {kind : PieceType}

theorem mem_listed_of_realizes {name : String} (hr : r.Realizes config)
    (h : PieceType.Realizes r.moves r.patterns (name, params) (name, kind)) (anyOk : Bool)
    {type : String} {formulas : List Formula} (htype : (type, formulas) ∈ kind.listed anyOk) :
    type ∈ params.listed anyOk := by
  cases anyOk with
  | false =>
    obtain ⟨m, hm, heq⟩ := List.mem_map.1 htype
    obtain ⟨listed, hlisted, hfind⟩ := h.moves.exists_of_mem_right hm
    cases heq
    exact hr.named.moves listed m hfind ▸ hlisted
  | true =>
    obtain ⟨t, ht, heq⟩ := List.mem_map.1 htype
    obtain ⟨listed, hlisted, hfind⟩ := h.patterns.exists_of_mem_right ht
    cases heq
    exact hr.named.patterns listed t hfind ▸ List.mem_eraseDups.1 hlisted

/-- A piece type has the types that its description lists, with formulas that their expressions read
as. -/
theorem exists_listed_of_realizes {name : String} (hr : r.Realizes config)
    (h : PieceType.Realizes r.moves r.patterns (name, params) (name, kind)) (anyOk : Bool)
    {type : String} {sources : List String} (htype : type ∈ params.listed anyOk)
    (hsources : config.sources? type anyOk = some sources) :
    ∃ formulas, (type, formulas) ∈ kind.listed anyOk ∧ Reads sources formulas := by
  cases anyOk with
  | false =>
    obtain ⟨m, hm, hfind⟩ := h.moves.flip.exists_of_mem_right htype
    obtain ⟨params', hparams', hrealizes⟩ :=
      NameMap.exists_of_find? (fun _ _ h ↦ h.key) hr.moves hfind
    rw [MatchConfig.sources?, hparams'] at hsources
    cases hsources
    refine ⟨m.formulas, List.mem_map.2 ⟨m, hm, ?_⟩, hrealizes.formulas⟩
    rw [hr.named.moves type m hfind]
  | true =>
    obtain ⟨t, ht, hfind⟩ := h.patterns.flip.exists_of_mem_right (List.mem_eraseDups.2 htype)
    obtain ⟨params', hparams', hrealizes⟩ :=
      NameMap.exists_of_find? (fun _ _ h ↦ h.key) hr.patterns hfind
    rw [MatchConfig.sources?, hparams'] at hsources
    cases hsources
    refine ⟨t.formulas, List.mem_map.2 ⟨t, ht, ?_⟩, hrealizes.formulas⟩
    rw [hr.named.patterns type t hfind]

end Listing

section Covering

variable {config : MatchConfig} {w : World}

/-- An expression is evaluated just if a type of piece that is placed lists its type. -/
theorem evaluates_iff (h : w.Opens config)
    (hall : ∀ e ∈ w.evaluations, ∃ paths, e.result w.board = .ok paths) (anyOk : Bool)
    {type source : String} {sources : List String}
    (hsources : config.sources? type anyOk = some sources) (hsource : source ∈ sources) :
    w.Evaluates type source anyOk ↔ config.Places (·.listed anyOk) type := by
  have hregistry : w.registry.Realizes config := (reports_ofConfig config).of_eq_ok h.registry_eq
  constructor
  · rintro ⟨e, he, rfl, -, rfl, -⟩
    obtain ⟨hp, formulas, htype, -⟩ := World.mem_evaluations.1 he
    obtain ⟨placement, hplacement, hkind⟩ := h.exists_placement hp
    obtain ⟨piece, hpiece, hrealizes⟩ :=
      NameMap.exists_of_find? (fun _ _ h ↦ h.key) hregistry.pieces hkind
    exact ⟨placement, hplacement, piece, hpiece, mem_listed_of_realizes hregistry hrealizes _ htype⟩
  · rintro ⟨placement, hplacement, piece, hpiece, htype⟩
    obtain ⟨p, hp, hkind⟩ := h.exists_piece hplacement
    obtain ⟨piece', hpiece', hrealizes⟩ :=
      NameMap.exists_of_find? (fun _ _ h ↦ h.key) hregistry.pieces hkind
    obtain rfl : piece' = piece := Option.some.inj (hpiece'.symm.trans hpiece)
    obtain ⟨formulas, hformulas, hreads⟩ :=
      exists_listed_of_realizes hregistry hrealizes anyOk htype hsources
    obtain ⟨f, hf, hparse⟩ := hreads.flip.exists_of_mem_right hsource
    have he : (⟨p, type, f, anyOk⟩ : Evaluation) ∈ w.evaluations :=
      World.mem_evaluations.2 ⟨hp, formulas, hformulas, hf⟩
    exact ⟨_, he, rfl, Formula.source_of_parse hparse, rfl, hall _ he⟩

end Covering

/-- A check that passes covers all expressions of a match just if every type with an expression is
listed by a type of piece that is placed. -/
theorem check_covers_iff {config : MatchConfig} (hpasses : config.Passes) :
    config.Covered ↔ config.PlacesAll := by
  obtain ⟨w, hsetup, hall⟩ := (passes_iff config).1 hpasses
  have hopens : w.Opens config := (reports_setup config).of_eq_ok hsetup
  have hcovered : config.Covered ↔ w.Covers config := by
    rw [MatchConfig.Covered, hsetup]
    simp only [Except.ok.injEq, exists_eq_left']
  rw [hcovered]
  have hevaluates := evaluates_iff hopens hall
  constructor
  · intro hcovers
    refine ⟨fun name params hfind hne ↦ ?_, fun name params hfind hne ↦ ?_⟩
    · obtain ⟨source, hsource⟩ := List.exists_mem_of_ne_nil _ hne
      exact (hevaluates false (congrArg (Option.map _) hfind) hsource).1
        (hcovers.moves name params hfind source hsource)
    · obtain ⟨source, hsource⟩ := List.exists_mem_of_ne_nil _ hne
      exact (hevaluates true (congrArg (Option.map _) hfind) hsource).1
        (hcovers.patterns name params hfind source hsource)
  · intro hplaces
    refine ⟨fun name params hfind source hsource ↦ ?_, fun name params hfind source hsource ↦ ?_⟩
    · exact (hevaluates false (congrArg (Option.map _) hfind) hsource).2
        (hplaces.moves name params hfind (List.ne_nil_of_mem hsource))
    · exact (hevaluates true (congrArg (Option.map _) hfind) hsource).2
        (hplaces.patterns name params hfind (List.ne_nil_of_mem hsource))

/-- A match whose pieces move to where they are is covered by its check. -/
theorem check_covers_placeFormula :
    let config := MatchConfig.ofFormula ⟨8, 8, by decide, by decide⟩ placeFormula ⟨2, 3⟩
    config.Passes ∧ config.Covered := by
  intro config
  have hpasses : config.Passes := by
    refine ⟨⟨1, 0, 1⟩, ⟨2, 2, 0⟩, ?_⟩
    unfold config MatchConfig.check MatchConfig.openingCounts World.setup
    rw [ofConfig_ofFormula]
    rfl
  refine ⟨hpasses, (check_covers_iff hpasses).2 ⟨fun name params hfind _ ↦ ?_, ?_⟩⟩
  · have hname : name = "move" :=
      List.mem_singleton.1 ((NameMap.find?_isSome_iff config.moves name).1 (hfind ▸ rfl))
    exact ⟨_, List.mem_cons_self, _, rfl, hname ▸ List.mem_cons_self⟩
  · exact fun _ _ h ↦ nomatch h

/-- The formula `(x, z)`, which uses a name that no board binds. -/
def strayFormula : Formula :=
  ⟨_, pair "x" "z", Expr.parse_spell (show ∀ t ∈ pairTokens "x" "z", t.IsWord by decide)
    (phrase_pair (by decide) (by decide)) (by decide)⟩

theorem relativePaths_strayFormula (b : Bindings) : strayFormula.relativePaths b =
    .error ⟨strayFormula.source, .failed (.unknownName "z")⟩ :=
  rfl

/-- A match with a move type that its type of piece does not list. -/
def MatchConfig.stray (board : Board) (f : Formula) (place : Point) : MatchConfig :=
  { ofFormula board f place with pieces := NameMap.empty.insert "piece" ⟨1, [], [], 0⟩ }

theorem ofConfig_stray (board : Board) (f : Formula) (place : Point) :
    Registry.ofConfig (.stray board f place) =
      .ok ((Registry.empty.addMove (.ofFormula f)).addPiece .still) := by
  have hmoves : (MatchConfig.stray board f place).moves.entries =
      [("move", ⟨.jump, [f.source]⟩)] := rfl
  unfold Registry.ofConfig
  rw [hmoves]
  simp only [List.foldlM_cons, List.foldlM_nil, registerMove_ofFormula]
  rfl

/-- The check passes whatever the formula of the move type is. -/
theorem check_stray (board : Board) (f : Formula) (place : Point) :
    (MatchConfig.stray board f place).check = .passed ⟨1, 0, 1⟩ ⟨2, 0, 0⟩ := by
  have hboard : (MatchConfig.stray board f place).board.toBoard = .ok board := toBoard_extent board
  unfold MatchConfig.check MatchConfig.openingCounts World.setup
  rw [ofConfig_stray, hboard]
  rfl

/-- A check that passes does not cover all expressions. -/
theorem not_check_covers : ¬∀ config : MatchConfig, config.Passes → config.Covered := by
  intro hall
  let config := MatchConfig.stray ⟨8, 8, by decide, by decide⟩ strayFormula .zero
  obtain ⟨w, -, hcovers⟩ := hall config ⟨_, _, check_stray ..⟩
  obtain ⟨e, -, -, hsource, -, paths, hpaths⟩ :=
    hcovers.moves "move" ⟨.jump, [strayFormula.source]⟩ rfl _ List.mem_cons_self
  rw [Evaluation.result, Formula.eq_of_source hsource, relativePaths_strayFormula] at hpaths
  cases hpaths

end Waypoints
