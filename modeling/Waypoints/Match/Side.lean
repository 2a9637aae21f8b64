/-!
# Sides, participants and piece identifiers

A match has two sides. A participant is known by number, and only the numbers 1 and 2 own a side;
number 0 is the referee. A piece is known by its side and its number on that side.
-/

set_option autoImplicit false
set_option relaxedAutoImplicit false

namespace Waypoints

/-- The colours of the two sets of pieces. -/
inductive Color
  | light
  | dark
  deriving DecidableEq, Repr

/-- The name of a colour. -/
def Color.name : Color → String
  | .light => "light"
  | .dark => "dark"

/-- One of the two sides of a match. -/
inductive Side
  | one
  | two
  deriving DecidableEq, Repr

namespace Side

/-- The name of a side. -/
def name : Side → String
  | one => "one"
  | two => "two"

/-- The side with a given name. -/
def ofName? : String → Option Side
  | "one" => some one
  | "two" => some two
  | _ => none

/-- The colour of a side's pieces. -/
def color : Side → Color
  | one => .light
  | two => .dark

end Side

/-- The number that the session gave a participant. -/
structure Participant where
  number : UInt32
  deriving DecidableEq, Repr

namespace Participant

/-- The participant who takes a side. -/
def ofSide : Side → Participant
  | .one => ⟨1⟩
  | .two => ⟨2⟩

/-- The side of a participant, if it owns one. -/
def side? (p : Participant) : Option Side :=
  if p.number = 1 then some .one
  else if p.number = 2 then some .two
  else none

/-- How a participant is named in messages. -/
def text (p : Participant) : String :=
  "participant #" ++ toString p.number.toNat

end Participant

/-- A piece's owner and its number among the pieces the owner was given. -/
structure PieceId where
  owner : Side
  index : UInt32
  deriving DecidableEq, Repr

/-- How a piece is named. -/
def PieceId.text (id : PieceId) : String :=
  id.owner.name ++ "#" ++ toString id.index.toNat

end Waypoints
