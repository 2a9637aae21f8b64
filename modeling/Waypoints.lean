import Waypoints.Main
import Waypoints.Match.Session
import Waypoints.Proofs.Ensures
import Waypoints.Proofs.Expr.Tree
import Waypoints.Proofs.Parsing.Ensures
import Waypoints.Proofs.Parsing.Grammar
import Waypoints.Proofs.Parsing.Soundness
import Waypoints.Proofs.Parsing.Completeness
import Waypoints.Proofs.Parsing.Spelling
import Waypoints.Proofs.Parsing.Language
import Waypoints.Proofs.Parsing.Nesting
import Waypoints.Proofs.Evaluation.Charges
import Waypoints.Proofs.Evaluation.Footprint
import Waypoints.Proofs.Evaluation.Places
import Waypoints.Proofs.Evaluation.Copies
import Waypoints.Proofs.Number.Binary64
import Waypoints.Proofs.Number.Integers
import Waypoints.Proofs.Number.SignOfZero
import Waypoints.Proofs.Agreement
import Waypoints.Proofs.Evaluation.Related
import Waypoints.Proofs.Evaluation.Comparison
import Waypoints.Proofs.Parsing.Forms
import Waypoints.Proofs.Parsing.Literals
import Waypoints.Proofs.Evaluation.Wildcards
import Waypoints.Proofs.Match.Setup
import Waypoints.Proofs.Evaluation.Poles
import Waypoints.Proofs.Match.Frames
import Waypoints.Proofs.Match.Compared
import Waypoints.Proofs.Match.Wildcards
import Waypoints.Proofs.Match.Mirror
import Waypoints.Proofs.Number.Rational
import Waypoints.Proofs.Number.Arithmetic
import Waypoints.Proofs.Evaluation.Semantics
import Waypoints.Proofs.Evaluation.Unlimited
import Waypoints.Proofs.Evaluation.Integers
import Waypoints.Proofs.Evaluation.Exactness
import Waypoints.Proofs.Reporting
import Waypoints.Proofs.Content.Registry
import Waypoints.Proofs.Match.Opening
import Waypoints.Proofs.Runs
import Waypoints.Proofs.Match.Actions
import Waypoints.Proofs.Match.Roster
import Waypoints.Proofs.Match.Numbering
import Waypoints.Proofs.Match.Order
import Waypoints.Proofs.Match.Sessions
import Waypoints.Proofs.Content.Coherence
import Waypoints.Proofs.Match.Generation
import Waypoints.Proofs.Command.Previews
import Waypoints.Proofs.Command.Coverage
import Waypoints.Proofs.InPlace
import Waypoints.Proofs.Match.Transactions
import Waypoints.Proofs.Match.Independence
import Waypoints.Proofs.Match.Progress
import Waypoints.Proofs.Parsing.Depth
import Waypoints.Proofs.Evaluation.Scoping
import Waypoints.Proofs.Evaluation.Stack
import Waypoints.Proofs.Evaluation.Faults
import Waypoints.Proofs.Evaluation.FreeNames
import Waypoints.Proofs.Lexing.Spelled
import Waypoints.Proofs.Lexing.Chunks
import Waypoints.Proofs.Lexing.Tiling
import Waypoints.Proofs.Lexing.Layout
import Waypoints.Proofs.Parsing.Steps
import Waypoints.Proofs.Parsing.Layout
import Waypoints.Proofs.Parsing.Blame
import Waypoints.Proofs.Expr.Errors
import Waypoints.Proofs.Evaluation.Sparing
import Waypoints.Proofs.Evaluation.Chains
import Waypoints.Proofs.Evaluation.Loops
import Waypoints.Proofs.Evaluation.Progressions
import Waypoints.Proofs.Expr.Shapes
import Waypoints.Proofs.Evaluation.Equality
import Waypoints.Proofs.Evaluation.Signless
import Waypoints.Proofs.Number.Decimals
import Waypoints.Proofs.Lexing.Numerals
import Waypoints.Proofs.Lexing.Delimited
import Waypoints.Proofs.Evaluation.Rendering
import Waypoints.Proofs.Lexing.Splitting
import Waypoints.Proofs.Parsing.Balance
import Waypoints.Proofs.Parsing.Width
import Waypoints.Proofs.Parsing.Positions
import Waypoints.Proofs.Parsing.Progress
import Waypoints.Proofs.Parsing.Following
import Waypoints.Proofs.Parsing.Termination
import Waypoints.Proofs.Match.Symmetry
import Waypoints.Proofs.Evaluation.BoardNames
import Waypoints.Proofs.Evaluation.Displacement
import Waypoints.Proofs.Match.ShippedPieces
