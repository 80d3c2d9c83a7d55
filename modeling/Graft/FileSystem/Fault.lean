import Graft.Path

/-!
# Faults of file operations

The reasons for which reading, writing or listing files can fail, and their wording. The numbers
are those of the operating system.
-/

namespace Graft

/-- Why a file operation failed. -/
inductive FileFault where
  | notFound
  /-- A directory was to be made where something else stands. -/
  | alreadyExists
  | notDirectory
  | isDirectory
  | nameTooLong
  | notText
  | nulInName
  | emptyPath
  /-- The walk over a directory could not enter `path`. -/
  | walk (path : Path) (fault : FileFault)
  | other (text : String)
deriving DecidableEq, Repr

def FileFault.message : FileFault → String
  | .notFound => "No such file or directory (os error 2)"
  | .alreadyExists => "File exists (os error 17)"
  | .notDirectory => "Not a directory (os error 20)"
  | .isDirectory => "Is a directory (os error 21)"
  | .nameTooLong => "File name too long (os error 36)"
  | .notText => "stream did not contain valid UTF-8"
  | .nulInName => "file name contained an unexpected NUL byte"
  | .emptyPath => "cannot make an empty path absolute"
  | .walk path fault => "IO error for operation on " ++ path.text ++ ": " ++ fault.message
  | .other text => text

end Graft
