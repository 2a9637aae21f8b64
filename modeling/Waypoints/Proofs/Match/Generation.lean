import Waypoints.Match.Piece
import Waypoints.Proofs.Agreement
import Waypoints.Proofs.Expr.Shapes
import Waypoints.Proofs.Reporting
/-!
# Which moves and patterns a piece has

A piece evaluates the formulas of its types one after another; `Piece.moveRuns` and
`Piece.patternRuns` list what they evaluate to. If all of them succeed, the piece has one move for
each path, in order, of the type of its formula and with the world image of the path; else
generation fails as the first one that fails (`generation_exact`). A rule selects all moves that it
permits, in the same order.
-/

set_option autoImplicit false
set_option relaxedAutoImplicit false

namespace Waypoints

variable {α β : Type}

/-! ### Runs -/

/-- What the formulas of types evaluate to for a piece, each with the type that it is of: the types
in the order in which they are listed, the formulas of a type in order. -/
def Piece.runs (p : Piece) (board : Board) (anyOk : Bool) (formulas : α → List Formula)
    (types : List α) : List (α × Except ExprError (List Path)) :=
  types.flatMap fun type ↦
    (formulas type).map fun f ↦ (type, f.relativePaths (p.bindings board anyOk))

/-- What the formulas of its moves evaluate to for a piece. -/
def Piece.moveRuns (p : Piece) (board : Board) : List (MoveType × Except ExprError (List Path)) :=
  p.runs board false MoveType.formulas p.kind.moves

/-- What the formulas of its patterns evaluate to for a piece. They may use wildcards. -/
def Piece.patternRuns (p : Piece) (board : Board) :
    List (PatternType × Except ExprError (List Path)) :=
  p.runs board true PatternType.formulas p.kind.patterns

/-- The errors of the runs that fail, in order. -/
def failures (runs : List (α × Except ExprError (List Path))) : List ExprError :=
  runs.flatMap (·.2.errors)

/-- The paths of the runs that succeed, in order, each with the type of its formula. -/
def yields (runs : List (α × Except ExprError (List Path))) : List (α × Path) :=
  runs.flatMap fun run ↦ (run.2.toOption.getD []).map (run.1, ·)

/-- All runs succeed. -/
def AllSucceed (runs : List (α × Except ExprError (List Path))) : Prop :=
  ∀ run ∈ runs, ∃ paths, run.2 = .ok paths

theorem failures_eq_nil {runs : List (α × Except ExprError (List Path))} :
    failures runs = [] ↔ AllSucceed runs := by
  rw [failures, List.flatMap_eq_nil_iff]
  exact forall₂_congr fun run _ ↦ (Except.reports_errors run.2).exists_ok_iff.symm

/-- The first error is that of a run before which all succeed. -/
theorem head?_failures_eq_some {runs : List (α × Except ExprError (List Path))} {e : ExprError} :
    (failures runs).head? = some e ↔ ∃ before type later,
      runs = before ++ (type, .error e) :: later ∧ AllSucceed before := by
  rw [failures, List.head?_flatMap, List.findSome?_eq_some_iff]
  simp only [List.head?_eq_none_iff]
  constructor
  · rintro ⟨before, ⟨type, e' | paths⟩, later, rfl, hfails, hbefore⟩
    · obtain rfl : e' = e := Option.some.inj hfails
      exact ⟨before, type, later, rfl, failures_eq_nil.1 (List.flatMap_eq_nil_iff.2 hbefore)⟩
    · cases hfails
  · rintro ⟨before, type, later, rfl, hbefore⟩
    exact ⟨before, _, later, rfl, rfl, List.flatMap_eq_nil_iff.1 (failures_eq_nil.2 hbefore)⟩

/-! ### Paths -/

namespace Value

/-- No path of a value is empty. -/
theorem ne_nil_of_toPaths? {v : Value} {paths : List Path} (h : v.toPaths? = some paths) :
    ∀ path ∈ paths, path ≠ [] := by
  obtain ⟨s, hshape⟩ := toPaths?_eq_some_iff.1 h
  rintro _ hpath rfl
  exact hshape.ne_nil.2 hpath

end Value

theorem Formula.ne_nil_of_relativePaths {f : Formula} {b : Bindings} {paths : List Path}
    (h : f.relativePaths b = .ok paths) : ∀ path ∈ paths, path ≠ [] := by
  unfold relativePaths at h
  split at h
  · cases h
  · split at h
    · next hpaths =>
      obtain rfl := Except.ok.inj h
      exact Value.ne_nil_of_toPaths? hpaths
    · cases h

/-! ### Generation -/

section Generation

variable (p : Piece) (board : Board) (anyOk : Bool)

theorem Piece.ne_nil_of_mem_yields {formulas : α → List Formula} {types : List α}
    {produced : α × Path} (h : produced ∈ yields (p.runs board anyOk formulas types)) :
    produced.2 ≠ [] := by
  obtain ⟨run, hrun, hproduced⟩ := List.mem_flatMap.1 h
  obtain ⟨type, -, hrun⟩ := List.mem_flatMap.1 hrun
  obtain ⟨f, -, rfl⟩ := List.mem_map.1 hrun
  obtain ⟨path, hpath, rfl⟩ := List.mem_map.1 hproduced
  cases hpaths : f.relativePaths (p.bindings board anyOk) with
  | error e =>
    rw [hpaths] at hpath
    cases hpath
  | ok paths =>
    rw [hpaths] at hpath
    exact Formula.ne_nil_of_relativePaths hpaths path hpath

theorem reports_worldPaths (f : Formula) :
    (f.worldPaths p.frame p.position board anyOk).Reports
      (f.relativePaths (p.bindings board anyOk)).errors
      (· = p.frame.pathsToWorld ((f.relativePaths (p.bindings board anyOk)).toOption.getD [])) := by
  change (p.frame.pathsToWorld <$> f.relativePaths (p.bindings board anyOk)).Reports _ _
  refine (Except.reports_errors _).map fun paths hpaths ↦ ?_
  rw [hpaths]
  rfl

/-- What is made of the paths of formulas is made of what their runs yield. -/
theorem reports_generation (formulas : α → List Formula) (types : List α) (make : α → Path → β) :
    (types.mapM (fun type ↦ (·.map (make type)) <$> p.paths board (formulas type) anyOk) >>=
      fun rows ↦ pure rows.flatten).Reports (failures (p.runs board anyOk formulas types))
      (· = (yields (p.runs board anyOk formulas types)).map fun produced ↦
        make produced.1 (produced.2.map p.frame.toWorld)) := by
  have hrow (type : α) : ((·.map (make type)) <$> p.paths board (formulas type) anyOk).Reports
      ((formulas type).flatMap fun f ↦ (f.relativePaths (p.bindings board anyOk)).errors)
      (· = ((formulas type).flatMap fun f ↦ p.frame.pathsToWorld
        ((f.relativePaths (p.bindings board anyOk)).toOption.getD [])).map (make type)) := by
    have hpaths := Except.Reports.mapM_flatten fun f (_ : f ∈ formulas type) ↦
      reports_worldPaths p board anyOk f
    exact hpaths.map fun paths h ↦ congrArg _ h
  refine ((Except.Reports.mapM_flatten fun type _ ↦ hrow type).congr ?_).imp ?_
  · simp only [failures, Piece.runs, List.flatMap_assoc, List.flatMap_map]
  · rintro items rfl
    simp only [yields, Piece.runs, Frame.pathsToWorld, List.flatMap_assoc, List.flatMap_map,
      List.map_flatMap, List.map_map, Function.comp_def]

theorem reports_possibleMoves : (p.possibleMoves board).Reports (failures (p.moveRuns board))
    (· = (yields (p.moveRuns board)).map fun produced ↦
      ⟨produced.1, p.id, produced.2.map p.frame.toWorld⟩) :=
  reports_generation p board false MoveType.formulas p.kind.moves (Move.mk · p.id ·)

theorem reports_possiblePatterns : (p.possiblePatterns board).Reports
    (failures (p.patternRuns board)) (· = (yields (p.patternRuns board)).map fun produced ↦
      .fresh produced.1 p.id (produced.2.map p.frame.toWorld)) :=
  reports_generation p board true PatternType.formulas p.kind.patterns (Pattern.fresh · p.id ·)

end Generation

/-! ### Generation is exact -/

/-- The move that a type makes of a path in the frame of a piece. It goes through what the frame
shows of the places of the path, of which there are some, and ends where the last one is. -/
structure Move.Follows (p : Piece) (produced : MoveType × Path) (m : Move) : Prop where
  kind_eq : m.kind = produced.1
  mode_eq : m.mode = produced.1.mode
  piece_eq : m.piece = p.id
  path : List.Forall₂ p.frame.Shows produced.2 m.path
  path_ne_nil : m.path ≠ []
  destination : ∃ place goal, produced.2.getLast? = some place ∧ p.frame.Shows place goal ∧
    m.destination? = some goal

/-- The pattern that a type makes of a path in the frame of a piece. Nothing of it is reached. -/
structure Pattern.Follows (p : Piece) (produced : PatternType × Path) (pattern : Pattern) :
    Prop where
  kind_eq : pattern.kind = produced.1
  piece_eq : pattern.piece = p.id
  path : List.Forall₂ p.frame.Shows produced.2 pattern.path
  path_ne_nil : pattern.path ≠ []
  reached_eq : pattern.reached = 0

/-- A frame shows a path as its world image. -/
theorem Frame.forall₂_shows_iff {f : Frame} {path world : Path} :
    List.Forall₂ f.Shows path world ↔ world = path.map f.toWorld :=
  List.forall₂_iff_eq_map fun _ _ _ ↦ shows_iff

theorem Move.follows_iff {p : Piece} {produced : MoveType × Path} (h : produced.2 ≠ [])
    (m : Move) :
    m.Follows p produced ↔ m = ⟨produced.1, p.id, produced.2.map p.frame.toWorld⟩ := by
  constructor
  · rintro ⟨hkind, -, hpiece, hpath, -, -⟩
    obtain ⟨kind, piece, path⟩ := m
    exact Move.mk.injEq .. ▸ ⟨hkind, hpiece, Frame.forall₂_shows_iff.1 hpath⟩
  · rintro rfl
    refine ⟨rfl, rfl, rfl, Frame.forall₂_shows_iff.2 rfl, mt List.map_eq_nil_iff.1 h, _, _,
      List.getLast?_eq_some_getLast h, Frame.shows_iff.2 rfl, ?_⟩
    rw [destination?, List.getLast?_map, List.getLast?_eq_some_getLast h]
    rfl

theorem Pattern.follows_iff {p : Piece} {produced : PatternType × Path} (h : produced.2 ≠ [])
    (pattern : Pattern) : pattern.Follows p produced ↔
      pattern = .fresh produced.1 p.id (produced.2.map p.frame.toWorld) := by
  constructor
  · rintro ⟨hkind, hpiece, hpath, -, hreached⟩
    obtain ⟨kind, piece, path, reached⟩ := pattern
    exact Pattern.mk.injEq .. ▸ ⟨hkind, hpiece, Frame.forall₂_shows_iff.1 hpath, hreached⟩
  · rintro rfl
    exact ⟨rfl, rfl, Frame.forall₂_shows_iff.2 rfl, mt List.map_eq_nil_iff.1 h, rfl⟩

/-- A computation makes one item of each path that runs yield, in order, if all runs succeed. Else
its error is that of the first run that fails. -/
structure Generates (x : Except ExprError (List β)) (runs : List (α × Except ExprError (List Path)))
    (item : α × Path → β → Prop) : Prop where
  exists_ok_iff : (∃ items, x = .ok items) ↔ AllSucceed runs
  ok_iff : ∀ items, x = .ok items ↔ AllSucceed runs ∧ List.Forall₂ item (yields runs) items
  error_iff : ∀ e, x = .error e ↔
    ∃ before type later, runs = before ++ (type, .error e) :: later ∧ AllSucceed before

theorem generates_of_reports {x : Except ExprError (List β)}
    {runs : List (α × Except ExprError (List Path))} {item : α × Path → β → Prop}
    {make : α × Path → β} (h : x.Reports (failures runs) (· = (yields runs).map make))
    (hitem : ∀ produced ∈ yields runs, ∀ b, item produced b ↔ b = make produced) :
    Generates x runs item where
  exists_ok_iff := h.exists_ok_iff.trans failures_eq_nil
  ok_iff items := by
    rw [List.forall₂_iff_eq_map hitem, ← failures_eq_nil, ← h.exists_ok_iff]
    constructor
    · rintro rfl
      exact ⟨⟨items, rfl⟩, h.2⟩
    · rintro ⟨⟨items', rfl⟩, rfl⟩
      rw [show items' = _ from h.2]
  error_iff e := (h.error_iff e).trans head?_failures_eq_some

/-- The part of a row that a test permits, in the same order: every part with only permitted members
is within it. -/
structure Selects (permits : α → Bool) (all part : List α) : Prop where
  sublist : part.Sublist all
  permitted : ∀ a ∈ part, permits a
  complete : ∀ other : List α, other.Sublist all → (∀ a ∈ other, permits a) → other.Sublist part

theorem selects_iff {permits : α → Bool} {all part : List α} :
    Selects permits all part ↔ part = all.filter permits := by
  have hfilter : Selects permits all (all.filter permits) := by
    refine ⟨List.filter_sublist, fun a ha ↦ (List.mem_filter.1 ha).2, fun other hall hother ↦ ?_⟩
    rw [← List.filter_eq_self.2 hother]
    exact hall.filter permits
  constructor
  · intro h
    exact (hfilter.complete part h.sublist h.permitted).antisymm
      (h.complete _ hfilter.sublist hfilter.permitted)
  · rintro rfl
    exact hfilter

/-- The legal moves are selected from the possible moves, if there are any. -/
theorem Piece.legalMoves_eq_ok_iff {p : Piece} {board : Board} {rule : Rule} {legal : List Move} :
    p.legalMoves board rule = .ok legal ↔
      ∃ moves, p.possibleMoves board = .ok moves ∧ Selects (rule p) moves legal := by
  unfold legalMoves
  simp only [selects_iff]
  constructor
  · intro h
    obtain ⟨moves, hmoves, h⟩ := Except.exists_of_bind_eq_ok h
    exact ⟨moves, hmoves, (Except.ok.inj h).symm⟩
  · rintro ⟨moves, hmoves, rfl⟩
    rw [hmoves]
    rfl

theorem Piece.legalMoves_eq_error_iff {p : Piece} {board : Board} {rule : Rule} {e : ExprError} :
    p.legalMoves board rule = .error e ↔ p.possibleMoves board = .error e := by
  unfold legalMoves
  cases p.possibleMoves board with
  | error e' => rfl
  | ok moves => constructor <;> exact fun h ↦ nomatch h

/-- The moves and the patterns of a piece are those of the paths that its formulas yield, in order,
and there are none if a formula fails. A rule selects the legal moves among the possible ones. The
formulas are evaluated for where the frame of the piece sees it, and for the extents of the board.
-/
theorem generation_exact (p : Piece) (board : Board) :
    (∀ anyOk, ∃ place, p.frame.Sees p.position place ∧ p.bindings board anyOk =
        ⟨place.x, place.y, board.width.toFloat, board.height.toFloat, anyOk⟩) ∧
      Generates (p.possibleMoves board) (p.moveRuns board) (Move.Follows p) ∧
      Generates (p.possiblePatterns board) (p.patternRuns board) (Pattern.Follows p) ∧
      ∀ rule : Rule,
        (∀ legal, p.legalMoves board rule = .ok legal ↔
          ∃ moves, p.possibleMoves board = .ok moves ∧ Selects (rule p) moves legal) ∧
        ∀ e, p.legalMoves board rule = .error e ↔ p.possibleMoves board = .error e := by
  refine ⟨fun _ ↦ ⟨p.playerPosition, Frame.sees_iff.2 rfl, rfl⟩,
    generates_of_reports (reports_possibleMoves p board) fun produced h ↦ ?_,
    generates_of_reports (reports_possiblePatterns p board) fun produced h ↦ ?_,
    fun rule ↦ ⟨fun legal ↦ ?_, fun e ↦ ?_⟩⟩
  · exact Move.follows_iff (p.ne_nil_of_mem_yields board false h)
  · exact Pattern.follows_iff (p.ne_nil_of_mem_yields board true h)
  · exact Piece.legalMoves_eq_ok_iff
  · exact Piece.legalMoves_eq_error_iff

end Waypoints
