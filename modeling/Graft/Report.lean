import Graft.Tree.SourceUnit

/-!
# Reports

A report is a positioned message about a unit. Handlers make notices, which name a span; a notice
becomes a report once the unit is known and the span can be resolved to a line and a column.
-/

namespace Graft

/-- How serious a report is. -/
inductive Severity where
  | warning
  | error
deriving DecidableEq, Repr

def Severity.name : Severity → String
  | .warning => "warning"
  | .error => "error"

/-- A message about a span of the current unit. -/
structure Notice where
  severity : Severity
  span : Span
  message : String
deriving DecidableEq, Repr

/-- A message about a position in a file. -/
structure Report where
  severity : Severity
  file : Path
  position : Position
  message : String
deriving DecidableEq, Repr

namespace Report

/-- The written form `file:line:col: message`. -/
def display (r : Report) : String :=
  r.file.text ++ ":" ++ r.position.display ++ ": " ++ r.message

/-- A notice about a unit, resolved. -/
def ofNotice (source : SourceText) (n : Notice) : Report :=
  ⟨n.severity, source.path, source.position n.span, n.message⟩

def hasErrors (reports : List Report) : Bool :=
  reports.any fun r => r.severity = .error

end Report

end Graft
