import Graft.FileSystem.Fault
import Graft.Glob.Comparison
import Graft.Text.Quoted
import Graft.Toml.Value

/-!
# What can be wrong with settings
-/

namespace Graft

/-- Why settings cannot be used. -/
inductive SettingsFault where
  | unreadable (file : Path) (fault : FileFault)
  | malformed (file : Path) (fault : Toml.Fault)
  | wrongType (file : Path) (key : String)
  | invalidPattern (pattern : String) (fault : Glob.Fault)
  | unusablePatterns (reason : Glob.Unusable)
  | other (text : String)
deriving DecidableEq, Repr

def SettingsFault.message : SettingsFault → String
  | .unreadable file fault => "failed to read " ++ file.text ++ ": " ++ fault.message
  | .malformed file fault => "failed to parse " ++ file.text ++ ": " ++ fault.message
  | .wrongType file key =>
    "failed to parse " ++ file.text ++ ": the value of " ++ key ++ " has the wrong type"
  | .invalidPattern pattern fault =>
    "invalid exclude pattern " ++ Text.quote pattern ++ ": error parsing glob '" ++ pattern ++
      "': " ++ fault.message
  | .unusablePatterns reason => "invalid exclude patterns: " ++ reason.message
  | .other text => text

end Graft
