import Waypoints.Proofs.Match.Actions
import Waypoints.Proofs.Match.Generation
import Waypoints.Proofs.Match.Wildcards
/-!
# How far a piece has come with its pattern

A `Piece.Course` is what a row of changes to a piece says of its pattern: the one that was set last,
and the replies to the advances since then. What shows of the pattern depends on nothing else. The
number of advances counts the waypoints reached until all of them are, and the pattern holds the
piece captive exactly until then (`pattern_progress`). A generated pattern has a waypoint to reach,
so none is complete from the start.
-/

set_option autoImplicit false
set_option relaxedAutoImplicit false

namespace Waypoints

/-! ### Generated patterns -/

/-- The pattern is one of those of a piece on a board: of all that its types describe, or of those
that one type lays out for it. -/
def Pattern.Generated (pattern : Pattern) : Prop :=
  ∃ (p : Piece) (board : Board) (patterns : List Pattern), pattern ∈ patterns ∧
    (p.possiblePatterns board = .ok patterns ∨ ∃ kind, p.patternsOf board kind = .ok patterns)

namespace Piece

variable {p : Piece} {board : Board}

theorem ne_nil_of_mem_paths {formulas : List Formula} {anyOk : Bool} {paths : List Path}
    (h : p.paths board formulas anyOk = .ok paths) : ∀ path ∈ paths, path ≠ [] := by
  obtain ⟨rows, hrows, h⟩ := Except.exists_of_bind_eq_ok h
  cases h
  intro path hpath
  obtain ⟨row, hrow, hpath⟩ := List.mem_flatten.1 hpath
  obtain ⟨f, -, hf⟩ := (Except.mapM_eq_ok_iff.1 hrows).exists_of_mem_right hrow
  obtain ⟨relative, hrelative, hf⟩ := Except.exists_of_bind_eq_ok hf
  cases hf
  obtain ⟨places, hplaces, rfl⟩ := List.mem_map.1 hpath
  exact mt List.map_eq_nil_iff.1 (Formula.ne_nil_of_relativePaths hrelative places hplaces)

/-- A pattern that is laid out has a waypoint, and none of its waypoints is reached. -/
theorem fresh_of_mem_patternsOf {kind : PatternType} {patterns : List Pattern}
    (h : p.patternsOf board kind = .ok patterns) :
    ∀ pattern ∈ patterns, pattern.path ≠ [] ∧ pattern.reached = 0 := by
  obtain ⟨paths, hpaths, h⟩ := Except.exists_of_bind_eq_ok h
  cases h
  intro pattern hpattern
  obtain ⟨path, hpath, rfl⟩ := List.mem_map.1 hpattern
  exact ⟨ne_nil_of_mem_paths hpaths path hpath, rfl⟩

end Piece

theorem Pattern.Generated.fresh {pattern : Pattern} (h : pattern.Generated) :
    pattern.path ≠ [] ∧ pattern.reached = 0 := by
  obtain ⟨p, board, patterns, hpattern, hall | ⟨kind, hkind⟩⟩ := h
  · obtain ⟨rows, hrows, hall⟩ := Except.exists_of_bind_eq_ok hall
    cases hall
    obtain ⟨row, hrow, hpattern⟩ := List.mem_flatten.1 hpattern
    obtain ⟨kind, -, hkind⟩ := (Except.mapM_eq_ok_iff.1 hrows).exists_of_mem_right hrow
    exact Piece.fresh_of_mem_patternsOf hkind pattern hpattern
  · exact Piece.fresh_of_mem_patternsOf hkind pattern hpattern

/-! ### Courses -/

/-- Whether the pattern advanced, if there was one, by the reply to an advance. -/
def Reply.advance? : Reply → Option (Option Bool)
  | .advanced result _ => some result
  | _ => none

/-- The pattern that a piece was given last, if it was not cleared, and the replies to the advances
since then. -/
structure Piece.Course where
  pattern : Option Pattern
  replies : List Reply

namespace Piece.Course

/-- The course after one more change, by the reply to it. -/
def next (course : Course) : Edit × Reply → Course
  | (.setPattern pattern, _) => ⟨pattern, []⟩
  | (.advance, reply) => { course with replies := course.replies ++ [reply] }
  | _ => course

/-- The course of a row of changes, from the pattern at the start. -/
def ofTrace (start : Option Pattern) (trace : List (Edit × Reply)) : Course :=
  trace.foldl next ⟨start, []⟩

theorem ofTrace_concat (start : Option Pattern) (trace : List (Edit × Reply)) (e : Edit × Reply) :
    ofTrace start (trace ++ [e]) = (ofTrace start trace).next e :=
  List.foldl_concat ..

end Piece.Course

/-! ### What shows of a pattern -/

namespace Pattern

/-- The pattern with so many of its waypoints reached, but no more than there are. -/
def along (pattern : Pattern) (advances : Nat) : Pattern :=
  { pattern with reached := min advances pattern.path.length }

theorem along_zero {pattern : Pattern} (h : pattern.reached = 0) : pattern.along 0 = pattern := by
  unfold along
  rw [Nat.zero_min, ← h]

theorem isComplete_along (pattern : Pattern) (advances : Nat) :
    (pattern.along advances).isComplete = decide (pattern.path.length ≤ advances) := by
  refine decide_eq_decide.2 ?_
  change pattern.path.length ≤ min advances pattern.path.length ↔ _
  omega

/-- One more advance reaches one more waypoint, if there is one. -/
theorem advance_along (pattern : Pattern) (advances : Nat) :
    (pattern.along advances).advance =
      (pattern.along (advances + 1), decide (advances < pattern.path.length)) := by
  unfold advance
  rw [isComplete_along]
  by_cases hrest : advances < pattern.path.length
  · have hreached : min advances pattern.path.length + 1 =
        min (advances + 1) pattern.path.length := by omega
    rw [if_neg (by simpa using hrest), decide_eq_true hrest]
    exact congrArg (fun n ↦ ({ pattern with reached := n }, true)) hreached
  · have hreached : min advances pattern.path.length =
        min (advances + 1) pattern.path.length := by omega
    rw [if_pos (by simpa using hrest), decide_eq_false hrest]
    exact congrArg (fun n ↦ ({ pattern with reached := n }, false)) hreached

/-- What shows of a pattern after so many advances. -/
structure Advanced (pattern now : Pattern) (advances : Nat) : Prop where
  kind_eq : now.kind = pattern.kind
  piece_eq : now.piece = pattern.piece
  path_eq : now.path = pattern.path
  reached_eq : now.reached = min advances pattern.path.length
  next?_of_lt : ∀ h : advances < pattern.path.length, now.next? = some pattern.path[advances]
  next?_of_le : pattern.path.length ≤ advances → now.next? = none
  isComplete_iff : now.isComplete ↔ pattern.path.length ≤ advances

theorem advanced_along (pattern : Pattern) (advances : Nat) :
    pattern.Advanced (pattern.along advances) advances where
  kind_eq := rfl
  piece_eq := rfl
  path_eq := rfl
  reached_eq := rfl
  next?_of_lt h := by
    change pattern.path[min advances pattern.path.length]? = _
    rw [Nat.min_eq_left h.le, List.getElem?_eq_getElem h]
  next?_of_le h := by
    change pattern.path[min advances pattern.path.length]? = _
    rw [Nat.min_eq_right h, List.getElem?_eq_none le_rfl]
  isComplete_iff := by
    rw [isComplete_along, decide_eq_true_eq]

end Pattern

/-! ### Every run -/

namespace Piece

/-- The piece has no pattern, or that of a course with as many waypoints reached as it was advanced.
The advances of the course were replied to accordingly. -/
def IsOn (p : Piece) (course : Course) : Prop :=
  match course.pattern with
  | none => p.currentPattern = none ∧ ∀ reply ∈ course.replies, reply.advance? = some none
  | some pattern => pattern.reached = 0 →
    p.currentPattern = some (pattern.along course.replies.length) ∧
      course.replies.map Reply.advance? = (List.range course.replies.length).map fun n ↦
        some (some (decide (n < pattern.path.length)))

theorem isOn_start (p : Piece) : p.IsOn ⟨p.currentPattern, []⟩ := by
  unfold IsOn
  dsimp only
  split
  · next hnone => exact ⟨hnone, List.forall_mem_nil _⟩
  · next pattern hpattern =>
    intro hfresh
    rw [hpattern, List.length_nil, Pattern.along_zero hfresh]
    exact ⟨rfl, rfl⟩

/-- Every change keeps a piece on its course. -/
theorem IsOn.next {p : Piece} {course : Course} (h : p.IsOn course) (edit : Edit) :
    (p.edit edit).1.IsOn (course.next (edit, (p.edit edit).2)) := by
  cases edit with
  | moveTo | setMove => exact h
  | setPattern pattern => exact isOn_start { p with currentPattern := pattern }
  | advance =>
    obtain ⟨pattern, replies⟩ := course
    change p.advance.1.IsOn ⟨pattern, replies ++ [.advanced p.advance.2 p.advance.1]⟩
    cases pattern with
    | none =>
      obtain ⟨hcurrent, hreplies⟩ := h
      have hadvance : p.advance = (p, none) := by rw [advance, hcurrent]
      rw [hadvance]
      exact ⟨hcurrent, List.forall_mem_append.2 ⟨hreplies, List.forall_mem_singleton.2 rfl⟩⟩
    | some pattern =>
      intro hfresh
      obtain ⟨hcurrent, hreplies⟩ := h hfresh
      dsimp only at hcurrent hreplies ⊢
      have hadvance : p.advance =
          ({ p with currentPattern := some (pattern.along (replies.length + 1)) },
            some (decide (replies.length < pattern.path.length))) := by
        rw [advance, hcurrent]
        dsimp only
        rw [Pattern.advance_along]
      rw [hadvance, List.length_append, List.length_singleton, List.map_append, hreplies,
        List.range_succ, List.map_append]
      exact ⟨rfl, rfl⟩

theorem isOn_editAll (p : Piece) (edits : List Edit) :
    (p.editAll edits).IsOn (.ofTrace p.currentPattern (System.trace edit p edits)) := by
  refine System.invariant edit
    (fun p' trace ↦ p'.IsOn (.ofTrace p.currentPattern trace)) p.isOn_start ?_ edits
  intro p' trace change h
  rw [Course.ofTrace_concat]
  exact h.next change

/-- What shows of the pattern of a piece, from what it was when it was set and the replies to the
advances since then. -/
structure Follows (p : Piece) (pattern : Pattern) (replies : List Reply) : Prop where
  length_pos : 1 ≤ pattern.path.length
  replies_eq : replies.map Reply.advance? =
    (List.range replies.length).map fun n ↦ some (some (decide (n < pattern.path.length)))
  advanced : ∃ now, p.currentPattern = some now ∧ pattern.Advanced now replies.length
  isHeld_iff : p.isHeld ↔
    pattern.kind.mustComplete = true ∧ replies.length < pattern.path.length

end Piece

/-- After every row of changes to a piece, a generated pattern that was set last has been reached as
far as it was advanced since, and holds the piece exactly if it must be completed and is not; and a
piece whose pattern was cleared, or that had none, is free. -/
theorem pattern_progress (p : Piece) (edits : List Piece.Edit) :
    let course := Piece.Course.ofTrace p.currentPattern (System.trace Piece.edit p edits)
    (∀ pattern, course.pattern = some pattern → pattern.Generated →
      (p.editAll edits).Follows pattern course.replies) ∧
    (course.pattern = none → (p.editAll edits).currentPattern = none ∧
      (p.editAll edits).isHeld = false ∧
      ∀ reply ∈ course.replies, reply.advance? = some none) := by
  intro course
  have hcourse : (p.editAll edits).IsOn course := p.isOn_editAll edits
  constructor
  · intro pattern hpattern hgenerated
    obtain ⟨hpath, hfresh⟩ := hgenerated.fresh
    unfold Piece.IsOn at hcourse
    rw [hpattern] at hcourse
    obtain ⟨hcurrent, hreplies⟩ := hcourse hfresh
    refine ⟨List.length_pos_of_ne_nil hpath, hreplies,
      ⟨_, hcurrent, pattern.advanced_along course.replies.length⟩, ?_⟩
    rw [Piece.isHeld, hcurrent]
    change (pattern.kind.mustComplete && !(pattern.along course.replies.length).isComplete) = true ↔
      _
    rw [Pattern.isComplete_along, Bool.and_eq_true, Bool.not_eq_true', decide_eq_false_iff_not,
      Nat.not_le]
  · intro hnone
    unfold Piece.IsOn at hcourse
    rw [hnone] at hcourse
    obtain ⟨hcurrent, hreplies⟩ := hcourse
    refine ⟨hcurrent, ?_, hreplies⟩
    rw [Piece.isHeld, hcurrent]
    rfl

/-- A pattern of one waypoint that has to be completed holds a piece until its first advance. -/
theorem pattern_progress_place :
    let board : Board := ⟨8, 8, by decide, by decide⟩
    let kind : PatternType := ⟨"pattern", [placeFormula], [], true⟩
    let p := Piece.fresh ⟨.one, 0⟩ (Side.one.frame board) .still .zero
    let pattern := Pattern.fresh kind p.id [p.frame.toWorld p.playerPosition]
    pattern.Generated ∧ (p.editAll [.setPattern (some pattern)]).isHeld ∧
      ¬(p.editAll [.setPattern (some pattern), .advance, .advance]).isHeld := by
  intro board kind p pattern
  have hgenerated : pattern.Generated :=
    ⟨p, board, [pattern], List.mem_singleton_self pattern, .inr ⟨kind, rfl⟩⟩
  have hset := (pattern_progress p [.setPattern (some pattern)]).1 pattern rfl hgenerated
  have hdone := (pattern_progress p [.setPattern (some pattern), .advance, .advance]).1 pattern rfl
    hgenerated
  exact ⟨hgenerated, hset.isHeld_iff.2 (by decide), mt hdone.isHeld_iff.1 (by decide)⟩

end Waypoints
