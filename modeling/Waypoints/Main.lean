import Waypoints.Command.Outcome
/-!
# The command line

The first argument names the command and the others are its settings. The exit code is 0 if the
command succeeds, 1 if it fails and 2 if the arguments cannot be understood.
-/

set_option autoImplicit false
set_option relaxedAutoImplicit false

namespace Waypoints

/-- What is printed when the arguments cannot be understood. -/
def usage : List String := [
  "Usage: waypoints check [-d DIR]",
  "       waypoints preview [-d DIR] [-f summary|json] [-p] [-s one|two]"]

/-- The lines that tell the reasons of a failure. -/
def failureLines : List String → List String
  | [] => []
  | [reason] => ["Error: " ++ reason]
  | reason :: causes => ("Error: " ++ reason) :: "" :: "Caused by:" :: causes.map ("    " ++ ·)

/-- Reads a file. -/
def readContents (path : String) : IO FileContents := do
  try
    return .ok (← IO.FS.readBinFile path)
  catch
    | .noFileOrDirectory .. => return .error .notFound
    | .inappropriateType .. => return .error .notDirectory
    | e => return .error (.other (toString e))

/-- Carries out a command with its settings and gives the exit code. -/
def runCommand (command : Command) (arguments : List String) : IO UInt32 := do
  match Invocation.ofArguments? command arguments with
  | none =>
    usage.forM fun line ↦ IO.eprintln line
    return 2
  | some invocation =>
    let contents ← match invocation.directory with
      | some directory => readContents (configPath directory)
      | none => pure (.error .notFound)
    let outcome := invocation.run fun _ ↦ contents
    outcome.printed.forM fun line ↦ IO.println line
    outcome.reported.forM fun line ↦ IO.eprintln line
    match outcome.failure with
    | none => return 0
    | some chain =>
      (failureLines chain).forM fun line ↦ IO.eprintln line
      return 1

end Waypoints

/-- The program. -/
def main : List String → IO UInt32
  | [] => do
    Waypoints.usage.forM fun line ↦ IO.eprintln line
    return 2
  | name :: arguments =>
    match Waypoints.Command.ofName? name with
    | some command => Waypoints.runCommand command arguments
    | none => do
      Waypoints.usage.forM fun line ↦ IO.eprintln line
      return 2
