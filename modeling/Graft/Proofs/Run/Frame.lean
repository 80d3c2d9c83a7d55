import Graft.Proofs.Discovery.Units
import Graft.Proofs.Sink.Writes
import Graft.Run

/-!
# What a run leaves alone

A run changes files only through its sink, and the sink only the file of the destination it is
given. So a run over one unit touches no other place than those its destination may lead to, and a
run over a directory none but those of the destinations of its units. This holds whatever the
handlers do and however the run ends.
-/

namespace Graft

open FileSystem (Keeps MayLeadTo)

namespace Survey

variable {σ : Type} {files files' : σ → FileSystem}
variable {visit : σ → UnitEntry → Except Error SourceUnit → σ × Bool} {inv : σ → Prop}
variable {entries : List UnitEntry} {state : σ}

/-- What every visit keeps holds at the end of a walk. -/
theorem walk_invariant (s : Survey) (files : σ → FileSystem) (start : inv state)
    (step : ∀ state e loaded, e ∈ entries → inv state → inv (visit state e loaded).1) :
    inv (s.walk files visit state entries) := by
  induction entries generalizing state with
  | nil => exact start
  | cons e rest ih =>
      have visited := step state e ((files state).loadUnit s.frontend e.path)
        List.mem_cons_self start
      rw [walk]
      simp only
      split
      · exact visited
      · exact ih visited fun state e loaded member =>
          step state e loaded (List.mem_cons_of_mem _ member)

/-- A walk depends on the files only through the units that it loads. -/
theorem walk_congr (s : Survey) (start : inv state)
    (step : ∀ state e loaded, e ∈ entries → inv state → inv (visit state e loaded).1)
    (agree : ∀ state e, e ∈ entries → inv state →
      (files state).loadUnit s.frontend e.path = (files' state).loadUnit s.frontend e.path) :
    s.walk files visit state entries = s.walk files' visit state entries := by
  induction entries generalizing state with
  | nil => rfl
  | cons e rest ih =>
      have visited := step state e ((files state).loadUnit s.frontend e.path)
        List.mem_cons_self start
      have loaded := agree state e List.mem_cons_self start
      rw [walk, walk, ← loaded]
      simp only
      split
      · rfl
      · exact ih visited
          (fun state e loaded member => step state e loaded (List.mem_cons_of_mem _ member))
          fun state e member => agree state e (List.mem_cons_of_mem _ member)

end Survey

namespace Run

variable {σ : Type} {r : Run} {p : Pipeline σ} {s s' : State σ} {d : Destination} {path : Path}
variable {loaded : Except Error SourceUnit}

/-! ### One unit -/

theorem emit_keeps (s : State σ) (d : Destination) (text : Option String) :
    Keeps (d.MayTouch s.out.files.cwd) s.out.files (emit s d text).2.out.files := by
  cases text with
  | none => exact .refl _ _
  | some text => exact (s.out.write_changes d text).keeps

/-- Whatever becomes of a unit, only the file of its destination is touched. -/
theorem process_keeps {report : Except Error FileReport}
    (processed : r.process p s path loaded d = some (report, s')) :
    Keeps (d.MayTouch s.out.files.cwd) s.out.files s'.out.files := by
  cases loaded with
  | error e =>
      cases processed
      exact .refl _ _
  | ok u =>
      rw [process] at processed
      obtain ⟨⟨generated, reports, handlers⟩, -, finished⟩ := Option.map_eq_some_iff.mp processed
      cases generated with
      | error e =>
          cases finished
          exact .refl _ _
      | ok g =>
          have kept := emit_keeps { s with handlers := handlers } d g.text
          simp only at finished
          split at finished
          · next result =>
              cases finished
              rwa [result] at kept
          · next result =>
              cases finished
              rwa [result] at kept

theorem runUnit_keeps {result : Except Error Summary}
    (ran : r.runUnit p s d = some (result, s')) :
    Keeps (d.MayTouch s.out.files.cwd) s.out.files s'.out.files := by
  obtain ⟨⟨report, s''⟩, processed, finished⟩ := Option.map_eq_some_iff.mp ran
  cases finished
  exact process_keeps processed

/-! ### The units of a directory -/

theorem readText_congr {fs fs' : FileSystem} (same : fs'.entry path = fs.entry path) :
    fs'.readText path = fs.readText path := by
  rw [FileSystem.readText, FileSystem.readText, same]

theorem loadUnit_congr {fs fs' : FileSystem} (same : fs'.entry path = fs.entry path)
    (f : Frontend) : fs'.loadUnit f path = fs.loadUnit f path := by
  unfold FileSystem.loadUnit
  rw [readText_congr same]

theorem loadUnit_eq_ok_iff {fs : FileSystem} {f : Frontend} {u : SourceUnit} :
    fs.loadUnit f path = .ok u ↔
      ∃ content, fs.readText path = .ok content ∧ f.parse path content = .ok u := by
  unfold FileSystem.loadUnit
  cases fs.readText path <;> simp

theorem run_of_isDir {registry : Registry (Handler σ)} {budget : Nat}
    (isDir : s.out.files.isDir r.source = true) :
    r.run registry budget s = r.runDirectory registry budget s := by
  unfold FileSystem.isDir at isDir
  unfold run
  split at isDir
  · next found => rw [found]
  · cases isDir

theorem visitEntry_keeps (r : Run) (p : Pipeline σ) (outputRoot : Option Path) (g : Progress σ)
    (e : UnitEntry) (loaded : Except Error SourceUnit) :
    Keeps ((r.entryDestination outputRoot e).MayTouch g.state.out.files.cwd) g.state.out.files
      (r.visitEntry p outputRoot g e loaded).1.state.out.files := by
  unfold visitEntry
  split
  · exact .refl _ _
  · next processed => exact process_keeps processed
  · next processed =>
      have kept := process_keeps processed
      simp only
      split <;> exact kept

/-- The places that the units of a directory may be written to. -/
def MayTouch (r : Run) (outputRoot : Option Path) (entries : List UnitEntry) (cwd : List String)
    (place : List String) : Prop :=
  ∃ e ∈ entries, (r.entryDestination outputRoot e).MayTouch cwd place

/-- The files are as they were, but for those that the units may be written to. -/
def Kept (r : Run) (outputRoot : Option Path) (entries : List UnitEntry) (fs : FileSystem)
    (g : Progress σ) : Prop :=
  Keeps (r.MayTouch outputRoot entries fs.cwd) fs g.state.out.files

theorem kept_visitEntry {fs : FileSystem} {outputRoot : Option Path} {entries : List UnitEntry}
    (p : Pipeline σ) (g : Progress σ) (e : UnitEntry) (loaded : Except Error SourceUnit)
    (member : e ∈ entries) (kept : r.Kept outputRoot entries fs g) :
    r.Kept outputRoot entries fs (r.visitEntry p outputRoot g e loaded).1 := by
  have visited := r.visitEntry_keeps p outputRoot g e loaded
  rw [FileSystem.Keeps.cwd kept] at visited
  exact FileSystem.Keeps.trans kept (visited.mono fun place _ _ touched => ⟨e, member, touched⟩)

/-- A run over the units of a plan touches the files of their destinations only. -/
theorem runDirectory_keeps {registry : Registry (Handler σ)} {budget : Nat} {plan : Plan}
    {result : Except Error Summary} (planned : r.plan s.out.files = .ok plan)
    (ran : r.runDirectory registry budget s = some (result, s')) :
    Keeps (r.MayTouch plan.outputRoot plan.entries s.out.files.cwd) s.out.files s'.out.files := by
  have start : r.Kept plan.outputRoot plan.entries s.out.files
      (⟨s, .empty, none, false⟩ : Progress σ) := FileSystem.Keeps.refl _ _
  have kept := plan.survey.walk_invariant (fun g => g.state.out.files) start
    (kept_visitEntry ⟨registry, budget, plan.relocations⟩)
  rw [runDirectory, planned] at ran
  simp only at ran
  split at ran
  · cases ran
  · split at ran <;> cases ran <;> exact kept

end Run

end Graft
