import Waypoints.Command.Record
import Waypoints.Command.Summary
import Waypoints.Content.Loading
/-!
# What a command prints

`Invocation.run` carries a command out on the match that was loaded for it. Its outcome is what is
printed, what is reported as an error, and the reasons of its failure if it fails.
-/

set_option autoImplicit false
set_option relaxedAutoImplicit false

namespace Waypoints

/-- The outcome of a command. -/
structure Outcome where
  printed : List String
  reported : List String
  /-- The reasons of a failure, each followed by what caused it. -/
  failure : Option (List String)
  deriving DecidableEq, Repr

namespace Outcome

/-- A command that succeeds. -/
def success (printed : List String) : Outcome :=
  ⟨printed, [], none⟩

/-- A command that fails before it prints anything. -/
def failed (chain : List String) : Outcome :=
  ⟨[], [], some chain⟩

end Outcome

/-- The line that counts the types of a match. -/
def ContentCounts.line (c : ContentCounts) : String :=
  "Content: " ++ toString c.moves ++ " move types, " ++ toString c.patterns ++
    " pattern types, " ++ toString c.pieces ++ " piece types"

/-- The line that counts what is in an opening position. -/
def OpeningCounts.line (c : OpeningCounts) : String :=
  "Opening: " ++ toString c.pieces ++ " pieces, " ++ toString c.moves ++ " moves, " ++
    toString c.patterns ++ " patterns"

/-- The line that reports an error. -/
def MatchError.line (e : MatchError) : String :=
  "error [" ++ e.severity.name ++ "] " ++ e.code

/-- What a check prints. -/
def CheckResult.outcome : CheckResult → Outcome
  | refused e => ⟨[], [(MatchError.config e).line], some e.chain⟩
  | stopped content e => ⟨[content.line], [e.line], some e.chain⟩
  | passed content opening => .success [content.line, opening.line, "Content OK"]

/-- A preview in a format. -/
def MatchView.write (v : MatchView) : Format → List String
  | .summary => v.summary
  | .json => [v.record.text]

/-- What a preview prints. -/
def previewOutcome (config : MatchConfig) (options : PreviewOptions) : Outcome :=
  match config.preview options.patterns options.side with
  | .ok view => .success (view.write options.format)
  | .error e => .failed e.chain

/-- Carries a command out. The function reads files. -/
def Invocation.run (invocation : Invocation) (read : String → FileContents) : Outcome :=
  match MatchConfig.load invocation.directory read with
  | .error e => .failed e.chain
  | .ok config =>
    match invocation with
    | .check _ => config.check.outcome
    | .preview _ options => previewOutcome config options

end Waypoints
