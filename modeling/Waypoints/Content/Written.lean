import Waypoints.Content.Config
import Waypoints.Toml.Document
/-!
# The written form of a match

A match is written as a TOML document. Its records are tables, or arrays that hold the fields in
order; fields with a default may be left out, and what a record does not know is passed over, as
long as its numbers are numbers. `MatchConfig.read?` reads a document.
-/

set_option autoImplicit false
set_option relaxedAutoImplicit false

namespace Waypoints

namespace Written

/-! ### Plain values -/

/-- A text. -/
def text? : Toml.Value → Option String
  | .string text => some text
  | _ => none

/-- A truth value. -/
def flag? : Toml.Value → Option Bool
  | .boolean b => some b
  | _ => none

/-- An extent of a board. -/
def extent? : Toml.Value → Option UInt32
  | .integer n => if 0 ≤ n && n < UInt32.size then some (.ofNat n.toNat) else none
  | _ => none

/-- A number. A whole one may be written as an integer that a word of 64 bits holds. -/
def number? : Toml.Value → Option Float
  | .float x => some x
  | .integer n =>
    if Toml.fitsWord 64 n then
      let magnitude := Decimal.toFloat ⟨n.natAbs, 0⟩
      some (if n < 0 then -magnitude else magnitude)
    else none
  | _ => none

/-- A row of values. -/
def list? {α : Type} (item? : Toml.Value → Option α) : Toml.Value → Option (List α)
  | .array items => items.mapM item?
  | _ => none

/-- A table of values by name. -/
def map? {α : Type} (item? : Toml.Value → Option α) : Toml.Value → Option (NameMap α)
  | .table entries => do
    return .ofList (← entries.mapM fun (name, v) ↦ do return (name, ← item? v))
  | _ => none

/-- A point, of which further components are passed over. -/
def point? : Toml.Value → Option Point
  | .array (x :: y :: _) => do return ⟨← number? x, ← number? y⟩
  | _ => none

/-- A mode of moving, also as the only name of a table under which nothing stands. -/
def mode? : Toml.Value → Option MoveMode
  | .string word => MoveMode.ofName? word
  | .table [(word, .table [])] => MoveMode.ofName? word
  | .table [(word, .array [])] => MoveMode.ofName? word
  | _ => none

/-! ### Records -/

/-- The value of a field that has one of some names, if it is there. It may not be there twice. -/
def field? (names : List String) (entries : Toml.Entries) : Option (Option Toml.Value) :=
  match entries.filter (names.contains ·.1) with
  | [] => some none
  | [(_, v)] => some (some v)
  | _ => none

/-- The values of the fields of a record, of which each has one of some names. A date has none. -/
def fields? (fields : List (List String)) : Toml.Value → Option (List (Option Toml.Value))
  | .table entries => do
    guard (entries.all fun (name, v) ↦ fields.flatten.contains name || v.isLegible)
    fields.mapM (field? · entries)
  | .array items => some (fields.mapIdx fun i _ ↦ items[i]?)
  | .datetime => some (fields.map fun _ ↦ none)
  | _ => none

/-- A field that has a default. -/
def orDefault {α : Type} (read? : Toml.Value → Option α) (default : α) :
    Option Toml.Value → Option α
  | some v => read? v
  | none => some default

/-- The extent of the board. -/
def board? (v : Toml.Value) : Option Extent := do
  match ← fields? [["width"], ["height"]] v with
  | [some width, some height] => return ⟨← extent? width, ← extent? height⟩
  | _ => none

/-- A move type. -/
def move? (v : Toml.Value) : Option MoveParams := do
  match ← fields? [["mode"], ["waypoints"]] v with
  | [some mode, some waypoints] => return ⟨← mode? mode, ← list? text? waypoints⟩
  | _ => none

/-- A pattern type. It has no consequences and is not captive unless it says so. -/
def pattern? (v : Toml.Value) : Option PatternParams := do
  match ← fields? [["waypoints"], ["on_complete"], ["must_complete"]] v with
  | [some waypoints, onComplete, mustComplete] =>
    return ⟨← list? text? waypoints, ← orDefault (list? text?) [] onComplete,
      ← orDefault flag? false mustComplete⟩
  | _ => none

/-- A piece type. It has no patterns and needs no time between moves unless it says so. -/
def piece? (v : Toml.Value) : Option PieceParams := do
  match ← fields? [["radius"], ["moves"], ["patterns"],
      ["move_cooldown_sec", "cooldown_sec"]] v with
  | [some radius, some moves, patterns, cooldown] =>
    return ⟨← number? radius, ← list? text? moves, ← orDefault (list? text?) [] patterns,
      ← orDefault number? 0 cooldown⟩
  | _ => none

/-- A piece of the opening position. -/
def placement? (v : Toml.Value) : Option Placement := do
  match ← fields? [["name"], ["pos"]] v with
  | [some name, some place] => return ⟨← text? name, ← point? place⟩
  | _ => none

/-- The opening position. -/
def setup? (v : Toml.Value) : Option (List Placement) := do
  match ← fields? [["pieces"]] v with
  | [pieces] => orDefault (list? placement?) [] pieces
  | _ => none

end Written

open Written in
/-- The match that a table describes. Everything but the board may be left out. -/
def MatchConfig.ofValue? (v : Toml.Value) : Option MatchConfig := do
  match ← fields? [["board"], ["moves"], ["patterns"], ["pieces"], ["setup"]] v with
  | [some board, moves, patterns, pieces, setup] =>
    return {
      board := ← board? board
      moves := ← orDefault (map? move?) .empty moves
      patterns := ← orDefault (map? pattern?) .empty patterns
      pieces := ← orDefault (map? piece?) .empty pieces
      setup := ← orDefault setup? [] setup }
  | _ => none

/-- The match that a document describes. -/
def MatchConfig.read? (text : String) : Option MatchConfig := do
  ofValue? (.table (← Toml.Document.read? text))

end Waypoints
