import Graft.Sha256
import Graft.Sink
import Graft.Text.Json

/-!
# Summaries

The summary of a run holds one report for each unit that was processed. Its written form is a JSON
text that depends on the summary alone.
-/

namespace Graft

/-- What happened to a unit. -/
inductive FileStatus where
  /-- Its text was written. -/
  | written
  /-- There was nothing to write. -/
  | unchanged
  /-- A handler stopped the run at this unit. -/
  | stopped
  /-- The unit was given up and nothing was written for it. -/
  | failed
deriving DecidableEq, Repr

def FileStatus.name : FileStatus → String
  | .written => "written"
  | .unchanged => "unchanged"
  | .stopped => "stopped"
  | .failed => "failed"

/-- What a report keeps of an error. -/
structure ErrorInfo where
  code : Nat
  message : String
  position : Option Position
deriving DecidableEq, Repr

def ErrorInfo.ofError (e : Error) : ErrorInfo := ⟨e.code, e.message, e.position?⟩

/-- What became of one unit. -/
structure FileReport where
  path : Path
  status : FileStatus
  destination : Option Destination
  bytes : Nat
  /-- The hash of the text that was written. -/
  hash : Option String
  applied : Nat
  diagnostics : List Report
  error : Option ErrorInfo
deriving DecidableEq, Repr

namespace FileReport

/-- The report of a unit that was given up. -/
def ofFailure (path : Path) (e : Error) (diagnostics : List Report) : FileReport :=
  ⟨path, .failed, none, 0, none, 0, diagnostics, some (ErrorInfo.ofError e)⟩

def isFailed (r : FileReport) : Bool := r.status = .failed

end FileReport

/-- What became of the units of a run. -/
structure Summary where
  files : List FileReport
  /-- Whether a handler ended the run early. -/
  stopped : Bool
deriving DecidableEq, Repr

namespace Summary

def version : String := "1"

def empty : Summary := ⟨[], false⟩

def push (s : Summary) (r : FileReport) : Summary := { s with files := s.files ++ [r] }

def ofReport (r : FileReport) : Summary := ⟨[r], r.status = .stopped⟩

def failures (s : Summary) : List FileReport := s.files.filter (·.isFailed)

/-- The reports of units that count as written: those that were, and one that stopped the run. -/
def written (s : Summary) : List FileReport :=
  s.files.filter fun r => r.status = .written || r.status = .stopped

def isSuccess (s : Summary) : Bool := s.failures.isEmpty

/-- The highest code of an error, or zero without one. -/
def exitCode (s : Summary) : Nat :=
  (s.failures.filterMap fun r => r.error.map (·.code)).foldl max 0

open Text (Json)

/-- A field that is left out when it has no value. -/
def optionalField (key : String) : Option Json → List (String × Json)
  | none => []
  | some v => [(key, v)]

def positionJson (p : Position) : Json :=
  .record [("line", .number p.line), ("col", .number p.col)]

def destinationJson (d : Destination) : Json :=
  .record (("kind", .text d.kind) :: optionalField "path" (d.path?.map fun p => .text p.text))

def reportJson (r : Report) : Json :=
  .record [("severity", .text r.severity.name), ("file", .text r.file.text),
    ("position", positionJson r.position), ("message", .text r.message)]

def errorJson (e : ErrorInfo) : Json :=
  .record ([("code", .number e.code), ("message", .text e.message)] ++
    optionalField "position" (e.position.map positionJson))

def fileJson (r : FileReport) : Json :=
  .record ([("path", .text r.path.text), ("status", .text r.status.name)] ++
    optionalField "destination" (r.destination.map destinationJson) ++
    [("bytes", .number r.bytes)] ++
    optionalField "hash" (r.hash.map .text) ++
    [("applied", .number r.applied)] ++
    optionalField "diagnostics"
      (if r.diagnostics.isEmpty then none else some (.list (r.diagnostics.map reportJson))) ++
    optionalField "error" (r.error.map errorJson))

def toJson (s : Summary) : Json :=
  .record [("schema_version", .text version), ("files", .list (s.files.map fileJson)),
    ("stopped", .flag s.stopped)]

/-- The written form of a summary: its JSON text and a line feed. -/
def render (s : Summary) : String := s.toJson.render ++ "\n"

end Summary

end Graft
