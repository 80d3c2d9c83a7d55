import Graft.Error
import Graft.FileSystem.Basic

/-!
# Sinks

A sink takes the printed units of one run to their destinations: a stream, a file of their own, or
a file that several units share. The first write to a shared file replaces what it held, and every
later write of the same run adds a line feed and the text. An empty text is never written, so it
makes no file and no directory.
-/

namespace Graft

/-- Where the text of a unit goes. -/
inductive Destination where
  | stream
  /-- A file of its own. -/
  | file (p : Path)
  /-- A file that units share. -/
  | append (p : Path)
deriving DecidableEq, Repr

namespace Destination

/-- The path of a destination that is a file. -/
def path? : Destination → Option Path
  | .stream => none
  | .file p => some p
  | .append p => some p

def display : Destination → String
  | .stream => "<stream>"
  | .file p => p.text
  | .append p => p.text

/-- The name of the sort of a destination. -/
def kind : Destination → String
  | .stream => "stream"
  | .file _ => "file"
  | .append _ => "append"

end Destination

/-- The destinations of one run. -/
structure Sink where
  /-- What the stream has received. -/
  stream : String
  /-- The fault of a stream that takes nothing. -/
  broken : Option FileFault
  /-- The shared files that have been written to. -/
  appended : List Path
deriving Repr

namespace Sink

def fresh : Sink := ⟨"", none, []⟩

def hasAppended (s : Sink) (p : Path) : Bool := s.appended.any fun q => q.same p

/-- A sink and the files that it writes to. -/
structure State where
  sink : Sink
  files : FileSystem

/-- Make the directory of a file and then write it. -/
def State.writeFile (s : State) (p : Path) (write : FileSystem → Except FileFault FileSystem) :
    Except FileFault Unit × State :=
  match s.files.createParent p with
  | (.error fault, files) => (.error fault, { s with files := files })
  | (.ok (), files) =>
    match write files with
    | .error fault => (.error fault, { s with files := files })
    | .ok files => (.ok (), { s with files := files })

/-- Note a shared file as written to. -/
def State.noteAppended (s : State) (p : Path) : State :=
  { s with sink := { s.sink with appended := s.sink.appended ++ [p] } }

/-- Write a text that is not empty. A shared file counts as written to as soon as its directory
exists, even if the file itself cannot be opened. -/
def State.writeText (s : State) (d : Destination) (text : String) : Except FileFault Unit × State :=
  match d with
  | .stream =>
    match s.sink.broken with
    | some fault => (.error fault, s)
    | none => (.ok (), { s with sink := { s.sink with stream := s.sink.stream ++ text } })
  | .file p => s.writeFile p fun files => files.write p text
  | .append p =>
    if s.sink.hasAppended p then s.writeFile p fun files => files.append p ("\n" ++ text)
    else
      match s.files.createParent p with
      | (.error fault, files) => (.error fault, { s with files := files })
      | (.ok (), files) =>
        let s := State.noteAppended { s with files := files } p
        match files.write p text with
        | .error fault => (.error fault, s)
        | .ok files => (.ok (), { s with files := files })

/-- Write a text to a destination and answer the number of bytes that were written. -/
def State.write (s : State) (d : Destination) (text : String) : Except Error Nat × State :=
  if text = "" then (.ok 0, s)
  else match s.writeText d text with
    | (.error fault, s) => (.error (.sink d.display fault), s)
    | (.ok (), s) => (.ok text.utf8ByteSize, s)

end Sink

end Graft
