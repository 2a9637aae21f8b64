import Waypoints.Proofs.Match.Generation
import Waypoints.Proofs.Match.Wildcards
import Waypoints.Proofs.Parsing.Blame
/-!
# Errors name what failed

A text that is refused is reported with its text and with an offset between two of its characters
(`Expr.isValid_offset`). An error of an evaluation names the text of its formula, and it is about
the shape of a value exactly if the formula has a value (`ExprError.Locates`). Where formulas are
evaluated in a row, the error is that of the first one that fails (`ExprError.LocatesFirst`), be it
a row of formulas or all those of a piece. `errors_located` puts this together.
-/

set_option autoImplicit false
set_option relaxedAutoImplicit false

namespace Waypoints

/-! ### Offsets -/

namespace Expr

variable {text : String}

theorem isValid_utf8ByteSize {before after : String} (h : text = before ++ after) :
    (⟨before.utf8ByteSize⟩ : String.Pos.Raw).IsValid text :=
  String.Pos.Raw.isValid_iff_exists_append.2 ⟨before, after, h, rfl⟩

/-- Every place of a text that is made of tokens is between two characters. -/
theorem isValid_offsetAt {ls : List Lexeme} (hls : lexemes 0 text.toList = .ok ls) (n : Nat) :
    (⟨offsetAt ls text.utf8ByteSize n⟩ : String.Pos.Raw).IsValid text := by
  obtain ⟨spans, rfl, htiles⟩ := exists_tiles_of_ok hls
  by_cases hn : n < spans.length
  · obtain ⟨before, after, htext, hstart, -⟩ := htiles.stands _ (List.getElem_mem hn)
    rw [offsetAt_of_lt hn, hstart]
    exact isValid_utf8ByteSize htext
  · rw [offsetAt_of_le (Nat.le_of_not_lt hn)]
    exact isValid_utf8ByteSize String.append_empty.symm

/-- A text is refused at an offset between two of its characters, be it that no token starts there
or that the token there is refused. -/
theorem isValid_offset {e : ParseError} (h : parse text = .error e) :
    (⟨e.offset⟩ : String.Pos.Raw).IsValid text := by
  cases hls : lexemes 0 text.toList with
  | error e' =>
    rw [parse, hls] at h
    obtain rfl := Except.error.inj h
    obtain ⟨spans, before, c, after, htext, rfl, -⟩ := exists_tiles_of_error hls
    exact isValid_utf8ByteSize htext
  | ok ls =>
    obtain ⟨n, -, hoffset⟩ := exists_blames hls h
    rw [hoffset]
    exact isValid_offsetAt hls _

end Expr

theorem Formula.parse_eq_error_iff {source : String} {e : ExprError} :
    Formula.parse source = .error e ↔
      ∃ error, Expr.parse source = .error error ∧ e = ⟨source, .malformed error⟩ := by
  unfold Formula.parse
  split
  · next hparse => exact iff_of_false nofun fun ⟨_, h, _⟩ ↦ nomatch hparse.symm.trans h
  · next error hparse =>
    constructor
    · intro h
      exact ⟨error, hparse, (Except.error.inj h).symm⟩
    · rintro ⟨_, h, rfl⟩
      rw [Except.error.inj (hparse.symm.trans h)]

/-! ### Evaluations -/

/-- No fault of an evaluation is one of a text or of a shape. -/
theorem EvalFault.errorClass_ne (fault : EvalFault) :
    fault.errorClass ≠ .parsing ∧ fault.errorClass ≠ .shape := by
  cases fault <;> exact ⟨nofun, nofun⟩

/-- The error with which a formula fails for these bindings. It names the text of the formula, it
is none of reading a text, and it is about the shape of a value exactly if there is a value. -/
structure ExprError.Locates (e : ExprError) (f : Formula) (b : Bindings) : Prop where
  fails : f.relativePaths b = .error e
  source_eq : e.source = f.source
  ne_parsing : e.errorClass ≠ .parsing
  shape_iff : e.errorClass = .shape ↔ ∃ v, f.expr.evaluate b = .ok v

/-- The error of the first formula of a row that fails for these bindings. -/
def ExprError.LocatesFirst (e : ExprError) (formulas : List Formula) (b : Bindings) : Prop :=
  ∃ before f later, formulas = before ++ f :: later ∧
    (∀ g ∈ before, ∃ paths, g.relativePaths b = .ok paths) ∧ e.Locates f b

theorem Formula.locates {f : Formula} {b : Bindings} {e : ExprError}
    (h : f.relativePaths b = .error e) : e.Locates f b := by
  have hfails := h
  unfold relativePaths at h
  split at h
  · next fault hfault =>
    obtain rfl := Except.error.inj h
    have hclass := fault.errorClass_ne
    refine ⟨hfails, rfl, hclass.1, iff_of_false hclass.2 ?_⟩
    rw [hfault]
    exact nofun
  · next v hv =>
    split at h
    · cases h
    · obtain rfl := Except.error.inj h
      exact ⟨hfails, rfl, nofun, iff_of_true rfl ⟨v, hv⟩⟩

/-- The error that is reported of a row of formulas is that of the first one that fails. -/
theorem locatesFirst_of_reports {α : Type} {x : Except ExprError α} {formulas : List Formula}
    {b : Bindings} {ok : α → Prop} {e : ExprError}
    (h : x.Reports (formulas.flatMap fun f ↦ (f.relativePaths b).errors) ok)
    (hx : x = .error e) : e.LocatesFirst formulas b := by
  have hhead := (h.error_iff e).1 hx
  rw [List.head?_flatMap, List.findSome?_eq_some_iff] at hhead
  obtain ⟨before, f, later, rfl, hf, hbefore⟩ := hhead
  refine ⟨before, f, later, rfl, fun g hg ↦ ?_, Formula.locates ?_⟩
  · exact (Except.reports_errors _).exists_ok_iff.2 (List.head?_eq_none_iff.1 (hbefore g hg))
  · exact ((Except.reports_errors _).error_iff e).2 hf

/-! ### Pieces -/

section Pieces

variable {p : Piece} {board : Board} {anyOk : Bool} {e : ExprError}

theorem Formula.locates_of_worldPaths {f : Formula}
    (h : f.worldPaths p.frame p.position board anyOk = .error e) :
    e.Locates f (p.bindings board anyOk) := by
  have hhead := ((reports_worldPaths p board anyOk f).error_iff e).1 h
  exact Formula.locates (((Except.reports_errors _).error_iff e).2 hhead)

theorem Piece.locatesFirst_of_paths {formulas : List Formula}
    (h : p.paths board formulas anyOk = .error e) :
    e.LocatesFirst formulas (p.bindings board anyOk) :=
  locatesFirst_of_reports
    (Except.Reports.mapM_flatten fun f _ ↦ reports_worldPaths p board anyOk f) h

theorem failures_runs {α : Type} (p : Piece) (board : Board) (anyOk : Bool)
    (formulas : α → List Formula) (types : List α) :
    failures (p.runs board anyOk formulas types) =
      (types.flatMap formulas).flatMap fun f ↦
        (f.relativePaths (p.bindings board anyOk)).errors := by
  simp only [failures, Piece.runs, List.flatMap_assoc, List.flatMap_map]

theorem Piece.locatesFirst_of_possibleMoves (h : p.possibleMoves board = .error e) :
    e.LocatesFirst (p.kind.moves.flatMap MoveType.formulas) (p.bindings board false) := by
  have hreports := reports_possibleMoves p board
  rw [Piece.moveRuns, failures_runs] at hreports
  exact locatesFirst_of_reports hreports h

theorem Piece.locatesFirst_of_possiblePatterns (h : p.possiblePatterns board = .error e) :
    e.LocatesFirst (p.kind.patterns.flatMap PatternType.formulas) (p.bindings board true) := by
  have hreports := reports_possiblePatterns p board
  rw [Piece.patternRuns, failures_runs] at hreports
  exact locatesFirst_of_reports hreports h

end Pieces

/-! ### All errors -/

/-- Errors are classified and say where they come from. An error of reading a text names the text
and an offset between two of its characters. An error of an evaluation names the text of the formula
that fails; it is never one of reading, and it is one of shape exactly if the evaluation has a
value. Where several formulas are evaluated, it is that of the first one that fails. -/
theorem errors_located :
    (∀ (text : String) (e : ExprError), Formula.parse text = .error e →
      e.source = text ∧ e.errorClass = .parsing ∧
        ∃ error, e.cause = .malformed error ∧ error.offset ≤ text.utf8ByteSize ∧
          (⟨error.offset⟩ : String.Pos.Raw).IsValid text) ∧
    (∀ (f : Formula) (b : Bindings) (e : ExprError), f.relativePaths b = .error e →
      e.Locates f b) ∧
    ∀ (p : Piece) (board : Board) (anyOk : Bool) (e : ExprError),
      (∀ f : Formula, f.worldPaths p.frame p.position board anyOk = .error e →
        e.Locates f (p.bindings board anyOk)) ∧
      (∀ formulas : List Formula, p.paths board formulas anyOk = .error e →
        e.LocatesFirst formulas (p.bindings board anyOk)) ∧
      (p.possibleMoves board = .error e →
        e.LocatesFirst (p.kind.moves.flatMap MoveType.formulas) (p.bindings board false)) ∧
      (p.possiblePatterns board = .error e →
        e.LocatesFirst (p.kind.patterns.flatMap PatternType.formulas) (p.bindings board true)) := by
  refine ⟨fun text e h ↦ ?_, fun f b e ↦ Formula.locates, fun p board anyOk e ↦
    ⟨fun f ↦ Formula.locates_of_worldPaths, fun formulas ↦ Piece.locatesFirst_of_paths,
      Piece.locatesFirst_of_possibleMoves, Piece.locatesFirst_of_possiblePatterns⟩⟩
  obtain ⟨error, herror, rfl⟩ := Formula.parse_eq_error_iff.1 h
  have hvalid := Expr.isValid_offset herror
  exact ⟨rfl, rfl, error, rfl, hvalid.le_utf8ByteSize, hvalid⟩

/-- The formula `[]`, the value of which is no path. -/
def emptyFormula : Formula :=
  ⟨_, .list [], Expr.parse_spell
    (show ∀ t ∈ [Token.mark .bracketOpen, .mark .bracketClose], t.IsWord by decide)
    Phrase.empty.expr_of_atom (by decide)⟩

/-- A letter with an accent is refused where it starts; and of the formulas `(x, y)` and `[]` the
second one is reported. -/
theorem errors_located_second :
    let board : Board := ⟨8, 8, by decide, by decide⟩
    let p := Piece.fresh ⟨.one, 0⟩ (Side.one.frame board) (.ofFormula placeFormula) .zero
    (∃ e, Formula.parse "x é" = .error e ∧ e.source = "x é" ∧ e.errorClass = .parsing) ∧
      ∃ e, p.paths board [placeFormula, emptyFormula] true = .error e ∧
        e.LocatesFirst [placeFormula, emptyFormula] (p.bindings board true) := by
  intro board p
  have hlexemes : lexemes 0 "x é".toList = .error ⟨2, .unexpectedCharacter 'é'⟩ := by
    decide +kernel
  have hparse : Expr.parse "x é" = .error ⟨2, .unexpectedCharacter 'é'⟩ := by
    rw [Expr.parse, hlexemes]
    rfl
  have herror := Formula.parse_eq_error_iff.2 ⟨_, hparse, rfl⟩
  obtain ⟨hsource, hclass, -⟩ := errors_located.1 _ _ herror
  have hpaths : p.paths board [placeFormula, emptyFormula] true =
      .error ⟨emptyFormula.source, .misshapen (.list [])⟩ := rfl
  exact ⟨⟨_, herror, hsource, hclass⟩, _, hpaths, (errors_located.2.2 p board true _).2.1 _ hpaths⟩

end Waypoints
