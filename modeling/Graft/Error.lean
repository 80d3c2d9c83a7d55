import Graft.FileSystem.Fault
import Graft.Handler
import Graft.Settings.Fault

/-!
# Errors

The errors of reading, expanding and writing units, their wording and their codes. An error that
concerns one unit only leaves the other units of a run alone; all other errors end the run.
-/

namespace Graft

/-- What is wrong with the arguments of a run. -/
inductive ArgumentFault where
  | printsDirectory (source : Path)
  /-- A directory of units needs a directory for its output. -/
  | outputNotDirectory (output : Path)
  /-- An output that several units share has to be a file. -/
  | appendsToDirectory (output : Path)
  /-- An output that several units share would overwrite the source. -/
  | appendsToSource (output : Path)
  /-- The source has no name that its output could bear. -/
  | noFileName (source : Path)
  | other (text : String)
deriving DecidableEq, Repr

def ArgumentFault.message : ArgumentFault → String
  | .printsDirectory source =>
    "cannot print directory " ++ source.text ++ "; give a single unit"
  | .outputNotDirectory output =>
    "output " ++ output.text ++ " must be a directory when the source is a directory"
  | .appendsToDirectory output => "append output " ++ output.text ++ " must be a file"
  | .appendsToSource output => "append output " ++ output.text ++ " is the source unit"
  | .noFileName source => "source " ++ source.text ++ " has no file name"
  | .other text => text

/-- What can go wrong. -/
inductive Error where
  | invalidArguments (fault : ArgumentFault)
  | load (path : Path) (position : Position) (message : String)
  /-- A unit, or a directory of units, cannot be read at all. -/
  | io (path : Path) (fault : FileFault)
  | handlerFailed (path : Path) (failure : PassFailure)
  /-- A reference cannot be moved to the output directory. -/
  | relocation (path : Path) (reference : String) (reason : String)
  | sink (destination : String) (fault : FileFault)
  | settings (fault : SettingsFault)
deriving DecidableEq, Repr

namespace Error

def message : Error → String
  | invalidArguments fault => "invalid arguments: " ++ fault.message
  | load path position message => path.text ++ ":" ++ position.display ++ ": " ++ message
  | io path fault => path.text ++ ": " ++ fault.message
  | handlerFailed path failure =>
    path.text ++ ":" ++ failure.position.display ++ ": failed to generate: " ++ failure.message
  | relocation path reference reason =>
    path.text ++ ": cannot relocate import \"" ++ reference ++ "\": " ++ reason
  | sink destination fault => "cannot write " ++ destination ++ ": " ++ fault.message
  | settings fault => "config error: " ++ fault.message

/-- The code of an error, which is also an exit status. -/
def code : Error → Nat
  | invalidArguments _ => 2
  | load .. => 3
  | io .. => 3
  | handlerFailed .. => 4
  | relocation .. => 4
  | sink .. => 5
  | settings _ => 10

/-- Whether an error concerns one unit only. -/
def isFileScoped : Error → Bool
  | load .. | io .. | handlerFailed .. | relocation .. => true
  | invalidArguments _ | sink .. | settings _ => false

/-- The position of an error in the text of its unit, if it has one. -/
def position? : Error → Option Position
  | load _ position _ => some position
  | handlerFailed _ failure => some failure.position
  | _ => none

end Error

end Graft
