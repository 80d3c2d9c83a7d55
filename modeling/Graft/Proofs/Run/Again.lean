import Graft.Proofs.Run.OutOfPlace

/-!
# Running again

A run over a directory that writes out of place and succeeds can be run again, with a sink that has
not written to the output yet. The second run succeeds with the same summary, and it leaves every
file as the first one left it: it finds the same units, since what the first run wrote is none of
them, it answers them in the same way, and it writes the same texts to the same places.

This needs handlers that keep no state, for otherwise the same unit need not have the same answer.
-/

namespace Graft

open FileSystem (Keeps)
open Sink.State (Writes row)

namespace Run

variable {σ : Type} {r : Run} {fs fs' : FileSystem} {plan : Plan} {s s' : State σ} {sink : Sink}
variable {entries : List (String × Entry)} {out out' : Sink.State}
variable {registry : Registry (Handler σ)} {budget : Nat} {summary : Summary}

/-! ### Sinks -/

/-- A sink that has not written to the output of a run yet. -/
def Unwritten (r : Run) (fs : FileSystem) (sink : Sink) : Prop :=
  ∀ output ∈ r.output, sink.hasAppended (Path.absolute fs.cwdPath output) = false

theorem unwritten_fresh (r : Run) (fs : FileSystem) : r.Unwritten fs .fresh := fun _ _ => rfl

/-- The writes of a course can be made again and change nothing. -/
theorem writes_again {known : UnitEntry → Option Answer} {halts : Answer → Bool}
    {steps : List (UnitEntry × Answer)} (outOfPlace : r.OutOfPlace fs)
    (direct : ".." ∉ r.source.pieces) (wellFormed : fs.WellFormed)
    (found : fs.entry r.source = .ok (.dir entries)) (planned : r.plan fs = .ok plan)
    (unwritten : r.Unwritten fs out.sink) (unwritten' : r.Unwritten fs sink)
    (start : out.files = fs) (course : Course known halts plan.entries steps)
    (writes : out.Writes (r.writesOf plan.outputRoot steps) out') :
    ∃ sink', Writes ⟨sink, out'.files⟩ (r.writesOf plan.outputRoot steps)
      ⟨sink', out'.files⟩ := by
  rcases shared_or_own outOfPlace planned with ⟨output, given, shared⟩ | ⟨own, files⟩
  · have one : r.writesOf plan.outputRoot steps =
        row (.append (Path.absolute fs.cwdPath output)) (steps.flatMap (·.2.texts)) := by
      simp only [writesOf, shared, row, List.map_flatMap]
    rw [one] at writes ⊢
    refine writes.shared_again (unwritten output given) (unwritten' output given) ?_
    intro text member
    obtain ⟨step, -, inside⟩ := List.mem_flatMap.mp member
    exact Answer.given_of_mem_texts inside
  · refine ⟨sink, writes.files_again ?_ ?_ ?_ sink⟩
    · intro w member
      obtain ⟨step, -, path, -⟩ := mem_writesOf.mp member
      rw [path]
      exact files step.1
    · exact fun w member => given_of_mem_writesOf member
    · rw [start]
      exact apart_writesOf course
        (apart_of_own outOfPlace direct wellFormed found planned own)

/-! ### Units -/

theorem sources_of_plan (isDir : fs.isDir r.source = true) (planned : r.plan fs = .ok plan) :
    r.sources fs = plan.entries.map (·.path) := by
  unfold FileSystem.isDir at isDir
  unfold sources
  split at isDir
  · next found => rw [found, planned]
  · cases isDir

/-- No path of a unit leads to a file that a unit was written to. -/
theorem samePlace_eq_false {e e' : UnitEntry} {q : Path} (wellFormed : fs.WellFormed)
    (planned : r.plan fs = .ok plan) (apart : r.UnitsApart fs plan) (member : e ∈ plan.entries)
    (member' : e' ∈ plan.entries) (path : (r.entryDestination plan.outputRoot e').path? = some q)
    (kept : Keeps (r.MayTouch plan.outputRoot plan.entries fs.cwd) fs fs') :
    fs'.samePlace e.path q = false := by
  rw [← Bool.not_eq_true]
  intro meet
  unfold FileSystem.samePlace at meet
  split at meet
  · next place place' here there =>
      obtain rfl := of_decide_eq_true meet
      obtain ⟨excluded, start, root, names, -, resolved, dir, finds⟩ :=
        finds_of_plan wellFormed planned member
      obtain ⟨⟨⟩, readable, -⟩ := bind_eq_ok_iff.mp here
      obtain ⟨resolved, content, file⟩ := finds.resolve resolved dir readable
      obtain rfl : place = start ++ names :=
        Except.ok.inj (here.symm.trans (kept.resolve resolved))
      obtain ⟨content', file', -⟩ := kept.file _ _ file
      have leads := FileSystem.mayLeadTo_of_resolve there file'
      rw [kept.cwd] at leads
      exact apart e member _ (FileSystem.mayLeadTo_of_resolve resolved file)
        ⟨e', member', q, path, leads⟩
  · cases meet

theorem Answer.destination_report {a : Answer} {path : Path} {d d' : Destination}
    (written : (a.report path d).destination = some d') : d' = d := by
  unfold report at written
  split at written
  · simp only [reportOf] at written
    split at written
    · exact (Option.some.inj written).symm
    · cases written
  · cases written

/-! ### Runs -/

/-- **Running again.** A run that writes out of place has the same summary when it is run again,
and it leaves the files as they are. Its units are the same, and no file that one of them was
written to is among them. -/
theorem run_again (stateless : registry.Stateless) (wellFormed : s.out.files.WellFormed)
    (isDir : s.out.files.isDir r.source = true) (direct : ".." ∉ r.source.pieces)
    (outOfPlace : r.OutOfPlace s.out.files) (unwritten : r.Unwritten s.out.files s.out.sink)
    (ran : r.run registry budget s = some (.ok summary, s'))
    (unwritten' : r.Unwritten s'.out.files sink) (handlers : σ) :
    ∃ s'', r.run registry budget ⟨⟨sink, s'.out.files⟩, handlers⟩ = some (.ok summary, s'') ∧
      s''.out.files = s'.out.files ∧
      r.sources s'.out.files = r.sources s.out.files ∧
      ∀ p ∈ r.sources s'.out.files, ∀ file ∈ summary.files, ∀ d ∈ file.destination,
        ∀ q ∈ d.path?, s'.out.files.samePlace p q = false := by
  obtain ⟨place, entries, resolved, there⟩ := FileSystem.isDir_iff.mp isDir
  have found := FileSystem.entry_eq_ok_iff.mpr ⟨place, resolved, there⟩
  rw [run_of_isDir isDir] at ran
  obtain ⟨plan, planned⟩ := plan_of_runDirectory ran
  have apart := unitsApart_of_outOfPlace outOfPlace direct wellFormed found planned
  obtain ⟨steps, course, rfl, writes⟩ := (runDirectory_eq_some_iff stateless wellFormed planned
    apart (Keeps.refl _ _) planned handlers).mp ⟨s'.handlers, ran⟩
  have changes := writes.changes.mono fun place touched => course.mayTouch touched
  have planned' := plan_changes outOfPlace direct wellFormed found planned changes
    (listsMore_of_writes outOfPlace direct wellFormed found planned course writes)
  have isDir' : s'.out.files.isDir r.source = true := changes.keeps.isDir isDir
  have same : r.sources s'.out.files = r.sources s.out.files :=
    (sources_of_plan isDir' planned').trans (sources_of_plan isDir planned).symm
  have cwd : s'.out.files.cwdPath = s.out.files.cwdPath := by
    rw [FileSystem.cwdPath, changes.keeps.cwd, FileSystem.cwdPath]
  obtain ⟨sink', again⟩ := writes_again outOfPlace direct wellFormed found planned unwritten
    (fun output given => cwd ▸ unwritten' output given) rfl course writes
  obtain ⟨handlers', ran'⟩ := (runDirectory_eq_some_iff
    (s := ⟨⟨sink, s'.out.files⟩, handlers⟩) stateless wellFormed planned apart changes.keeps
    planned' handlers).mpr ⟨steps, course, rfl, again⟩
  refine ⟨⟨⟨sink', s'.out.files⟩, handlers'⟩, ?_, rfl, same, ?_⟩
  · exact (run_of_isDir (s := ⟨⟨sink, s'.out.files⟩, handlers⟩) isDir').trans ran'
  intro p source file reported d written q path
  rw [same, sources_of_plan isDir planned] at source
  obtain ⟨e, member, rfl⟩ := List.mem_map.mp source
  obtain ⟨step, inside, rfl⟩ := List.mem_map.mp reported
  obtain rfl := Answer.destination_report written
  exact samePlace_eq_false wellFormed planned apart member
    (course.initial.subset (List.mem_map_of_mem inside)) path changes.keeps

theorem run_again_unitFiles :
    ∃ summary s' s'', (appendRun "_gen").run addingRegistry 9 unitStart = some (.ok summary, s') ∧
      (s'.out.files.readText ⟨"src/a_gen.rmc"⟩).toOption = some "(fn B)\n" ∧
      (appendRun "_gen").run addingRegistry 9 ⟨⟨.fresh, s'.out.files⟩, ()⟩ =
        some (.ok summary, s'') ∧
      s''.out.files = s'.out.files ∧
      (appendRun "_gen").sources s'.out.files = [⟨"/src/a.rmc"⟩] := by
  have written : ((appendRun "_gen").run addingRegistry 9 unitStart).bind (fun done =>
      done.1.toOption.map fun _ => (done.2.out.files.readText ⟨"src/a_gen.rmc"⟩).toOption) =
        some (some "(fn B)\n") := by
    decide +kernel
  obtain ⟨⟨result, s'⟩, ran, written⟩ := Option.bind_eq_some_iff.mp written
  obtain ⟨summary, ended, written⟩ := Option.map_eq_some_iff.mp written
  cases result with
  | error e => cases ended
  | ok summary' =>
      obtain rfl : summary' = summary := Option.some.inj ended
      have stateless : addingRegistry.Stateless := fun _ _ _ _ _ _ _ => rfl
      have outOfPlace : (appendRun "_gen").OutOfPlace unitFiles := by
        simp only [OutOfPlace, appendRun]
        decide
      obtain ⟨s'', again, same, sources, -⟩ := run_again stateless
        ⟨by decide +kernel, by decide⟩ (by decide +kernel) (by decide) outOfPlace
        (unwritten_fresh _ _) ran (unwritten_fresh _ _) ()
      exact ⟨summary', s', s'', ran, written, again, same, sources.trans (by decide +kernel)⟩

end Run

end Graft
