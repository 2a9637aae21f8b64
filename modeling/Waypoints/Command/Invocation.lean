import Waypoints.Match.Side
/-!
# Command lines

There are two commands, each with its own settings. A setting is named by a word or by a letter,
may be given once, and may need a value: after an equals sign, in the next argument, or, after a
letter, in the rest of the argument. Letters without values may be put together. Nothing else may
stand on the line, except for two dashes at its end.
-/

set_option autoImplicit false
set_option relaxedAutoImplicit false

namespace Waypoints

/-- What the program can do. -/
inductive Command
  | check
  | preview
  deriving DecidableEq, Repr

/-- The command with a given name. -/
def Command.ofName? : String → Option Command
  | "check" => some .check
  | "preview" => some .preview
  | _ => none

/-- How a preview is written. -/
inductive Format
  | summary
  | json
  deriving DecidableEq, Repr

/-- The format with a given name. -/
def Format.ofName? : String → Option Format
  | "summary" => some .summary
  | "json" => some .json
  | _ => none

/-- What to show in a preview. -/
structure PreviewOptions where
  format : Format
  /-- Whether to show the patterns. -/
  patterns : Bool
  /-- The side to show. Without it both are shown. -/
  side : Option Side
  deriving DecidableEq, Repr

/-- A command with its settings. -/
inductive Invocation
  | check (directory : Option String)
  | preview (directory : Option String) (options : PreviewOptions)
  deriving DecidableEq, Repr

/-! ### Settings -/

/-- What may be set on a command line. -/
inductive Setting
  | directory
  | format
  | patterns
  | side
  deriving DecidableEq, Repr

namespace Setting

/-- The word that names a setting, after two dashes. -/
def word : Setting → String
  | directory => "data-dir"
  | format => "format"
  | patterns => "patterns"
  | side => "side"

/-- The letter that names a setting, after one dash. -/
def letter : Setting → Char
  | directory => 'd'
  | format => 'f'
  | patterns => 'p'
  | side => 's'

/-- Whether a setting needs a value. -/
def needsValue : Setting → Bool
  | patterns => false
  | _ => true

/-- The settings of a command. -/
def ofCommand : Command → List Setting
  | .check => [directory]
  | .preview => [directory, format, patterns, side]

end Setting

/-- A setting and its value, which is empty if it needs none. -/
abbrev Given := Setting × String

/-- What one argument gives: settings, and a setting whose value has to follow. -/
abbrev Mention := List Given × Option Setting

namespace Mention

/-- A setting named by its word, perhaps with a value after an equals sign. -/
def ofWord? (allowed : List Setting) (text : List Char) : Option Mention := do
  let word := text.takeWhile (· != '=')
  let setting ← allowed.find? (·.word.toList == word)
  match setting.needsValue, text.drop word.length with
  | true, [] => return ([], some setting)
  | true, _ :: value => return ([(setting, String.ofList value)], none)
  | false, [] => return ([(setting, "")], none)
  | false, _ => none

/-- Settings named by their letters. The first one that needs a value takes the other letters for
it. -/
def ofLetters? (allowed : List Setting) : List Char → Option Mention
  | [] => some ([], none)
  | letter :: letters => do
    let setting ← allowed.find? (·.letter == letter)
    match setting.needsValue, letters with
    | true, [] => return ([], some setting)
    | true, '=' :: value => return ([(setting, String.ofList value)], none)
    | true, value => return ([(setting, String.ofList value)], none)
    | false, _ =>
      let (later, open?) ← ofLetters? allowed letters
      return ((setting, "") :: later, open?)

/-- The settings of an argument. -/
def ofArgument? (allowed : List Setting) (argument : String) : Option Mention :=
  match argument.toList with
  | '-' :: '-' :: text => ofWord? allowed text
  | '-' :: letter :: letters => ofLetters? allowed (letter :: letters)
  | _ => none

end Mention

/-- Whether an argument can be the value of the setting before it. -/
def isValue (argument : String) : Bool :=
  argument == "-" || !argument.startsWith "-"

/-- The settings of a row of arguments, which may start with the value of a setting before them. -/
def givenSettings? (allowed : List Setting) :
    Option Setting → List String → Option (List Given)
  | none, [] => some []
  | none, ["--"] => some []
  | some _, [] => none
  | some setting, value :: arguments => do
    guard (isValue value)
    return (setting, value) :: (← givenSettings? allowed none arguments)
  | none, argument :: arguments => do
    let (given, open?) ← Mention.ofArgument? allowed argument
    return given ++ (← givenSettings? allowed open? arguments)

/-! ### Invocations -/

/-- The value of a setting, or a default if it is not given. -/
def valueOr? {α : Type} (given : List Given) (setting : Setting) (read? : String → Option α)
    (default : α) : Option α :=
  match given.lookup setting with
  | some value => read? value
  | none => some default

namespace Invocation

/-- The directory with the match. Its name may not be empty. -/
def directory? (given : List Given) : Option (Option String) :=
  valueOr? given .directory (fun value ↦ if value.isEmpty then none else some (some value)) none

/-- The command with the given settings, each of which may be given once. -/
def ofGiven? (command : Command) (given : List Given) : Option Invocation := do
  guard (given.map (·.1)).Nodup
  let directory ← directory? given
  match command with
  | .check => return check directory
  | .preview =>
    return preview directory {
      format := ← valueOr? given .format Format.ofName? .summary
      patterns := (given.lookup .patterns).isSome
      side := ← valueOr? given .side (fun value ↦ some <$> Side.ofName? value) none }

/-- The command with the settings of its arguments, unless these cannot be understood. -/
def ofArguments? (command : Command) (arguments : List String) : Option Invocation := do
  ofGiven? command (← givenSettings? (Setting.ofCommand command) none arguments)

/-- The directory that holds the match. -/
def directory : Invocation → Option String
  | check directory => directory
  | preview directory _ => directory

end Invocation

end Waypoints
