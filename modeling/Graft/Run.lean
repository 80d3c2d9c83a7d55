import Graft.Discovery
import Graft.Expansion
import Graft.Summary

/-!
# Runs

A run expands a unit, or the units of a directory, and writes the results. Where the result of a
unit goes depends on the source, the output and the mode:

* a single unit without an output goes to the stream; with an output it goes to that file, or to
  the file of its own name in that directory;
* the units of a directory without an output replace themselves; with an output directory they go
  to the same relative paths there, and their references are relocated;
* in append mode the additions of a unit go to a file beside it, whose stem has the suffix for
  generated files, or, with an output, to that one file after the additions of the other units.

Loading, handler and relocation errors give up one unit: nothing is written for it, and the run
goes on unless it is to fail fast. All other errors end the run. A handler's verdict `stop` ends
the run with success, after the unit at hand has been written.

A run whose walks spend their budget has no result.
-/

namespace Graft

/-- What to run over, and how. -/
structure Run where
  frontend : Frontend
  source : Path
  output : Option Path
  settings : Settings

namespace Run

variable {σ : Type}

/-- A run over a source; the empty path stands for the current directory. -/
def ofSource (frontend : Frontend) (source : Path) : Run :=
  ⟨frontend, if source.text = "" then ⟨"./"⟩ else source, none, .standard⟩

/-- The run with an output; the empty path stands for none. -/
def withOutput (r : Run) (output : Path) : Run :=
  { r with output := if output.text = "" then none else some output }

def withSettings (r : Run) (settings : Settings) : Run := { r with settings := settings }

/-- The run with the settings of the source directory, or of the directory of the source file. -/
def withProjectSettings (r : Run) (fs : FileSystem) : Except Error Run :=
  let dir := if fs.isDir r.source then r.source else r.source.parent?.getD ⟨"./"⟩
  (Settings.loadFrom fs dir).map r.withSettings

/-- What a run changes: the files and the sink, and the state of the handlers. -/
structure State (σ : Type) where
  out : Sink.State
  handlers : σ

/-- What a run applies to each unit. -/
structure Pipeline (σ : Type) where
  registry : Registry (Handler σ)
  /-- The bound on the nesting of each walk. -/
  budget : Nat
  relocations : Option Relocations

structure Generated where
  /-- The text; nothing when the unit has nothing to emit. -/
  text : Option String
  stopped : Bool
  applied : Nat

/-- Relocate the references of a unit, if the run relocates any, and print it. -/
def printRelocated (r : Run) (relocations : Option Relocations) (u : SourceUnit) :
    Except Error String :=
  match relocations with
  | none => .ok (r.frontend.print u)
  | some table =>
    match table.apply u with
    | (.error e, _) => .error e
    | (.ok _, after) => .ok (r.frontend.print after)

/-- The unit whose text is to be emitted. -/
def emitted? (r : Run) (o : Expansion.Outcome σ) : Option SourceUnit :=
  if r.settings.append then o.additions
  else if o.applied = 0 ∧ r.settings.skipUnchanged then none
  else some o.unit

def textOf (r : Run) (p : Pipeline σ) (o : Expansion.Outcome σ) : Except Error Generated :=
  let done (text : Option String) : Generated := ⟨text, o.ending = .stopped, o.applied⟩
  match o.ending with
  | .failed f => .error (.handlerFailed o.unit.path f)
  | _ =>
    match r.emitted? o with
    | none => .ok (done none)
    | some u => (r.printRelocated p.relocations u).map fun text => done (some text)

/-- Expand a unit and print it. The reports and the state of the handlers are those reached, also
when the unit fails. -/
def generate (r : Run) (p : Pipeline σ) (handlers : σ) (u : SourceUnit) :
    Option (Except Error Generated × List Report × σ) :=
  (Expansion.expand p.registry r.settings.append p.budget ⟨handlers, [], 0⟩ u).map fun o =>
    (r.textOf p o, o.session.reports, o.session.state)

/-- The report of a unit whose text has been written. -/
def reportOf (path : Path) (d : Destination) (g : Generated) (bytes : Nat)
    (diagnostics : List Report) : FileReport where
  path := path
  status := if g.stopped then .stopped else if bytes = 0 then .unchanged else .written
  destination := if bytes > 0 then some d else none
  bytes := bytes
  hash := if bytes > 0 then g.text.map Sha256.hashText else none
  applied := g.applied
  diagnostics := diagnostics
  error := none

/-- What becomes of an error while a unit is processed: a report, if it concerns the unit only. -/
def settle (path : Path) (e : Error) (diagnostics : List Report) : Except Error FileReport :=
  if e.isFileScoped then .ok (.ofFailure path e diagnostics) else .error e

/-- Write the text of a unit. -/
def emit (s : State σ) (d : Destination) (text : Option String) : Except Error Nat × State σ :=
  match text with
  | none => (.ok 0, s)
  | some text =>
    match s.out.write d text with
    | (bytes, out) => (bytes, { s with out := out })

/-- Expand a loaded unit and write the result. -/
def process (r : Run) (p : Pipeline σ) (s : State σ) (path : Path)
    (loaded : Except Error SourceUnit) (d : Destination) :
    Option (Except Error FileReport × State σ) :=
  match loaded with
  | .error e => some (settle path e [], s)
  | .ok u =>
    (r.generate p s.handlers u).map fun (generated, reports, handlers) =>
      let s := { s with handlers := handlers }
      match generated with
      | .error e => (settle path e reports, s)
      | .ok g =>
        match emit s d g.text with
        | (.error e, s) => (.error e, s)
        | (.ok bytes, s) => (.ok (reportOf path d g bytes reports), s)

/-- The file beside a unit that its additions go to. -/
def generatedPath (r : Run) (p : Path) : Path :=
  let stem := p.stem?.getD "" ++ r.settings.genSuffix
  p.withFileName (match p.extension? with
    | some extension => stem ++ "." ++ extension
    | none => stem)

/-- Where a single unit goes. -/
def fileDestination (r : Run) (fs : FileSystem) : Except Error Destination :=
  match r.output, r.settings.append with
  | some output, true =>
    if fs.isDir output then .error (.invalidArguments (.appendsToDirectory output))
    else if fs.samePlace output r.source then .error (.invalidArguments (.appendsToSource output))
    else .ok (.append output)
  | none, true => .ok (.file (r.generatedPath r.source))
  | some output, false =>
    if fs.isDir output then
      match r.source.fileName? with
      | some name => .ok (.file (output.join ⟨name⟩))
      | none => .error (.invalidArguments (.noFileName r.source))
    else .ok (.file output)
  | none, false => .ok .stream

/-- Where a unit of a directory goes. -/
def entryDestination (r : Run) (outputRoot : Option Path) (e : UnitEntry) : Destination :=
  match outputRoot, r.settings.append with
  | some output, true => .append output
  | none, true => .file (r.generatedPath e.path)
  | some output, false => .file (output.join e.relative)
  | none, false => .file e.path

/-- The result of a run: a summary, or the error that ended it, and what the run changed. -/
abbrev Result (σ : Type) := Option (Except Error Summary × State σ)

/-- Run over a single unit that goes to a destination. -/
def runUnit (r : Run) (p : Pipeline σ) (s : State σ) (d : Destination) : Result σ :=
  let loaded := s.out.files.loadUnit r.frontend r.source
  (r.process p s r.source loaded d).map fun (report, s) => (report.map Summary.ofReport, s)

/-- The absolute form of a path. -/
def absolute (fs : FileSystem) (p : Path) : Except Error Path :=
  if p.text = "" then .error (.io p .emptyPath) else .ok (Path.absolute fs.cwdPath p)

/-- The absolute form of the output. -/
def absoluteOutput (r : Run) (fs : FileSystem) : Except Error (Option Path) :=
  match r.output with
  | none => .ok none
  | some output => (absolute fs output).map some

/-- The survey of the units of a directory: an output inside the source root is passed over, and
so are generated files in append mode. -/
def survey (r : Run) (sourceRoot : Path) (outputRoot : Option Path)
    (excluded : List (List Glob.Token)) : Survey :=
  let s : Survey :=
    { Survey.ofRoot r.frontend sourceRoot with
      excluded := excluded
      modulePath := r.settings.modulePath }
  let s := match outputRoot with
    | some output =>
      if !output.same sourceRoot && output.startsWith sourceRoot then s.skip output else s
    | none => s
  if r.settings.append then s.skipGenerated r.settings.genSuffix else s

/-- The output directory that the units of a directory are relocated to, if they are. -/
def relocationRoot? (r : Run) (sourceRoot : Path) (outputRoot : Option Path) : Option Path :=
  outputRoot.filter fun output => !r.settings.append && !output.same sourceRoot

/-- The progress of a run over the units of a directory. -/
structure Progress (σ : Type) where
  state : State σ
  summary : Summary
  /-- The error that ends the run. -/
  fatal : Option Error
  /-- Whether a walk spent its budget. -/
  spent : Bool

/-- Process one unit of a directory; the answer is whether the run ends with it. -/
def visitEntry (r : Run) (p : Pipeline σ) (outputRoot : Option Path) (g : Progress σ)
    (e : UnitEntry) (loaded : Except Error SourceUnit) : Progress σ × Bool :=
  match r.process p g.state e.path loaded (r.entryDestination outputRoot e) with
  | none => ({ g with spent := true }, true)
  | some (.error err, s) => ({ g with state := s, fatal := some err }, true)
  | some (.ok report, s) =>
    let summary := g.summary.push report
    match report.status with
    | .stopped => ({ g with state := s, summary := { summary with stopped := true } }, true)
    | .failed => ({ g with state := s, summary := summary }, r.settings.failFast)
    | _ => ({ g with state := s, summary := summary }, false)

/-- Everything that a run over a directory needs to know before its first unit. -/
structure Plan where
  outputRoot : Option Path
  survey : Survey
  entries : List UnitEntry
  relocations : Option Relocations

/-- Find the units of a directory and see whether the arguments and settings allow a run. -/
def plan (r : Run) (fs : FileSystem) : Except Error Plan := do
  let sourceRoot ← absolute fs r.source
  let outputRoot ← r.absoluteOutput fs
  match outputRoot with
  | some output =>
    if !r.settings.append && fs.isFile output then
      .error (.invalidArguments (.outputNotDirectory output))
    else .ok ()
  | none => .ok ()
  let excluded ← r.settings.excluded
  let survey := r.survey sourceRoot outputRoot excluded
  let entries ← survey.discover fs
  let relocations := (r.relocationRoot? sourceRoot outputRoot).map fun output =>
    Relocations.ofIndex (survey.packageIndex entries) sourceRoot output
  .ok ⟨outputRoot, survey, entries, relocations⟩

/-- Run over the units of a directory. -/
def runDirectory (r : Run) (registry : Registry (Handler σ)) (budget : Nat) (s : State σ) :
    Result σ :=
  match r.plan s.out.files with
  | .error e => some (.error e, s)
  | .ok plan =>
    let p : Pipeline σ := ⟨registry, budget, plan.relocations⟩
    let done := plan.survey.walk (fun g => g.state.out.files) (r.visitEntry p plan.outputRoot)
      ⟨s, .empty, none, false⟩ plan.entries
    if done.spent then none
    else match done.fatal with
      | some e => some (.error e, done.state)
      | none => some (.ok done.summary, done.state)

/-- Expand and write the source. -/
def run (r : Run) (registry : Registry (Handler σ)) (budget : Nat) (s : State σ) : Result σ :=
  match s.out.files.entry r.source with
  | .error fault => some (.error (.io r.source fault), s)
  | .ok (.dir _) => r.runDirectory registry budget s
  | .ok (.file _) =>
    match r.fileDestination s.out.files with
    | .error e => some (.error e, s)
    | .ok d => r.runUnit ⟨registry, budget, none⟩ s d

/-- Expand the source, which has to be a single unit, and write it to the stream. -/
def print (r : Run) (registry : Registry (Handler σ)) (budget : Nat) (s : State σ) : Result σ :=
  if s.out.files.isDir r.source then
    some (.error (.invalidArguments (.printsDirectory r.source)), s)
  else r.runUnit ⟨registry, budget, none⟩ s .stream

end Run

end Graft
