import Waypoints.Content.Shipped
import Waypoints.Content.Written
/-!
# Loading a match

A directory holds a match in its file `config.toml`. Reading files is left to the caller, who hands
over what came of it; `MatchConfig.ofFile` and `MatchConfig.load` make a match of that.
-/

set_option autoImplicit false
set_option relaxedAutoImplicit false

namespace Waypoints

/-- Why a file cannot be read. -/
inductive FileFault
  | notFound
  /-- The path leads through a file that is no directory. -/
  | notDirectory
  | notText
  /-- Any other reason, in the words of the system. -/
  | other (reason : String)
  deriving DecidableEq, Repr

namespace FileFault

/-- The wording of a reason. -/
def message : FileFault → String
  | notFound => "No such file or directory (os error 2)"
  | notDirectory => "Not a directory (os error 20)"
  | notText => "stream did not contain valid UTF-8"
  | other reason => reason

/-- Whether there is no file at the path. -/
def isAbsent : FileFault → Bool
  | notFound => true
  | notDirectory => true
  | notText => false
  | other _ => false

end FileFault

/-- Why a match cannot be loaded. -/
inductive LoadError
  /-- The file cannot be read. -/
  | unreadable (path : String) (fault : FileFault)
  /-- The text describes no match. -/
  | malformed
  /-- The text of the file describes no match. -/
  | malformedFile (path : String)
  deriving DecidableEq, Repr

/-- The reasons of an error, each followed by what caused it. -/
def LoadError.chain : LoadError → List String
  | unreadable path fault => ["Failed to read file " ++ path ++ ": " ++ fault.message]
  | malformed => ["Failed to parse config TOML:"]
  | malformedFile path => ["Failed to load config " ++ path, "Failed to parse config TOML:"]

/-- The path of the file that describes a match in a directory. -/
def configPath (directory : String) : String :=
  if directory.endsWith "/" then directory ++ "config.toml" else directory ++ "/config.toml"

/-- What came of reading a file. -/
abbrev FileContents := Except FileFault ByteArray

namespace MatchConfig

/-- The match that a text describes. -/
def ofText (text : String) : Except LoadError MatchConfig :=
  match read? text with
  | some config => .ok config
  | none => .error .malformed

/-- The match that the contents of a file describe. -/
def ofFile (path : String) : FileContents → Except LoadError MatchConfig
  | .error fault => .error (.unreadable path fault)
  | .ok bytes =>
    match String.fromUTF8? bytes with
    | none => .error (.unreadable path .notText)
    | some text =>
      match read? text with
      | some config => .ok config
      | none => .error (.malformedFile path)

/-- The match that the contents of a file describe, or the shipped one if there is no file. -/
def ofFileOrShipped (path : String) (contents : FileContents) : Except LoadError MatchConfig :=
  match contents with
  | .error fault => if fault.isAbsent then .ok Shipped.config else ofFile path contents
  | .ok _ => ofFile path contents

/-- The match in a directory, or the shipped one if no directory is given. The function reads
files. -/
def load (directory : Option String) (read : String → FileContents) :
    Except LoadError MatchConfig :=
  match directory with
  | none => .ok Shipped.config
  | some directory => ofFile (configPath directory) (read (configPath directory))

end MatchConfig

end Waypoints
