import Graft.Proofs.Run.Reports

/-!
# What counts as written

A report has a destination, a hash and a number of bytes if its unit was written, and none of them
if it was not. `FileReport.Emission` says of one report which of the two has happened to the sink,
and `Emissions` says it of a row of reports, one after the other. The reports of a run are such a
row, from the sink that it starts with to the sink that it ends with, `emissions_of_run`. This holds
of a run over one unit, of a run over a directory and of printing.

A summary counts units as written by the status alone, and the status of a unit that stops the run
does not tell whether there was anything to write. So the count is right but for such a unit,
`mem_written_iff`; `written_stopped` is a run that counts one.
-/

namespace Graft

open Sink.State (row)

/-- The unit of a report was written: to a destination, with a hash, and not with an empty text. -/
structure FileReport.Emitted (f : FileReport) : Prop where
  destination : f.destination.isSome = true
  hash : f.hash.isSome = true
  bytes : 0 < f.bytes

/-- What has happened to the sink when a unit is reported. -/
inductive FileReport.Emission (f : FileReport) : Sink.State → Sink.State → Prop
  /-- A text was written, and the report has its destination, its hash and its length. -/
  | wrote {d : Destination} {text : String} {out out' : Sink.State}
      (destination : f.destination = some d) (hash : f.hash = some (Sha256.hashText text))
      (given : 0 < f.bytes) (written : out.write d text = (.ok f.bytes, out')) :
      Emission f out out'
  /-- Nothing was written. -/
  | nothing {out : Sink.State} (destination : f.destination = none) (hash : f.hash = none)
      (empty : f.bytes = 0) : Emission f out out

/-- A row of reports, each with what has happened to the sink. -/
def Emissions : Sink.State → List FileReport → Sink.State → Prop
  | out, [], out' => out' = out
  | out, f :: fs, out'' => ∃ out', f.Emission out out' ∧ Emissions out' fs out''

/-- Where a report counts as written and nothing was, a handler has stopped the run. -/
theorem FileReport.Consistent.written_iff {f : FileReport} (consistent : f.Consistent) :
    f.status = .written ∨ f.status = .stopped ↔ f.Emitted ∨ f.status = .stopped ∧ f.bytes = 0 := by
  have emitted : 0 < f.bytes → f.Emitted := fun given =>
    ⟨consistent.destination_iff.mpr given, consistent.hash_iff.mpr given, given⟩
  constructor
  · rintro (written | stopped)
    · exact Or.inl (emitted (consistent.written written))
    · rcases Nat.eq_zero_or_pos f.bytes with empty | given
      · exact Or.inr ⟨stopped, empty⟩
      · exact Or.inl (emitted given)
  · rintro (emitted | ⟨stopped, -⟩)
    · cases status : f.status with
      | written => exact Or.inl rfl
      | stopped => exact Or.inr rfl
      | unchanged => exact absurd (consistent.unwritten (Or.inl status)) (Nat.ne_of_gt emitted.bytes)
      | failed => exact absurd (consistent.unwritten (Or.inr status)) (Nat.ne_of_gt emitted.bytes)
    · exact Or.inr stopped

namespace Run

variable {σ : Type} {r : Run} {p : Pipeline σ} {s s' : State σ} {outputRoot : Option Path}
variable {path : Path} {d : Destination} {out out' : Sink.State} {entries : List UnitEntry}
variable {vs : List (Visit σ)} {files : List FileReport} {f : FileReport} {summary : Summary}
variable {registry : Registry (Handler σ)} {budget : Nat}

/-- An answer is reported with what was written of it. -/
theorem Answer.emission {a : Answer} (writes : out.Writes (row d a.texts) out') :
    (a.report path d).Emission out out' := by
  obtain ⟨result, reports⟩ := a
  cases result with
  | error e =>
      obtain rfl : out' = out := writes
      exact .nothing rfl rfl rfl
  | ok g =>
      obtain ⟨_ | text, stopped, applied⟩ := g
      · obtain rfl : out' = out := writes
        exact .nothing rfl rfl rfl
      · have written := Sink.State.writes_nonempty_iff.mp writes
        by_cases empty : text = ""
        · obtain rfl : out' = out := by
            rw [empty] at writes
            exact writes
          exact .nothing (by simp [report, reportOf, empty]) (by simp [report, reportOf, empty])
            (by simp [report, reportOf, empty])
        · have given : 0 < text.utf8ByteSize :=
            Nat.pos_of_ne_zero fun zero => empty (String.utf8ByteSize_eq_zero_iff.mp zero)
          exact .wrote (by simp [report, reportOf, given]) (by simp [report, reportOf, given])
            given written

/-- Visits that come to reports have written what the reports say. -/
theorem emissions_of_visits (visits : Visits r p outputRoot s entries vs s')
    (results : vs.map (·.result) = files.map .ok) : Emissions s.out files s'.out := by
  have emission : ∀ {v : Visit σ} {f}, v.Made r p outputRoot → v.result = .ok f →
      f.Emission v.before.out v.after.out := by
    intro v f made reported
    obtain ⟨rfl, -, writes⟩ := made.report reported
    exact Answer.emission writes
  induction visits generalizing files with
  | done =>
      obtain rfl : files = [] := by simpa using results.symm
      exact rfl
  | last made halts =>
      obtain ⟨f, rfl, reported⟩ := List.map_eq_singleton_iff.mp results.symm
      exact ⟨_, emission made reported.symm, rfl⟩
  | next made goes more ih =>
      obtain ⟨f, rest, rfl, reported, others⟩ := List.map_eq_cons_iff.mp results.symm
      exact ⟨_, emission made reported.symm, ih others.symm⟩

/-- The one report of a run over a unit that goes to a destination. -/
theorem report_of_runUnit (ran : r.runUnit p s d = some (.ok summary, s')) :
    ∃ a : Answer, summary.files = [a.report r.source d] ∧ s.out.Writes (row d a.texts) s'.out := by
  obtain ⟨⟨report, last⟩, processed, ended⟩ := Option.map_eq_some_iff.mp ran
  rcases process_cases r p s r.source (s.out.files.loadUnit r.frontend r.source) d with
    ⟨-, spent⟩ | ⟨a, handlers, -, finished⟩
  · rw [processed] at spent
    cases spent
  · rw [processed, Option.some.injEq] at finished
    cases report with
    | error e => cases ended
    | ok report =>
        cases ended
        obtain ⟨-, rfl, -, writes⟩ := finish_eq_ok_iff.mp finished.symm
        exact ⟨a, rfl, writes⟩

theorem emissions_of_runUnit (ran : r.runUnit p s d = some (.ok summary, s')) :
    Emissions s.out summary.files s'.out ∧ ∀ f ∈ summary.files, f.Consistent := by
  obtain ⟨a, files, writes⟩ := report_of_runUnit ran
  rw [files]
  refine ⟨⟨_, Answer.emission writes, rfl⟩, ?_⟩
  intro f member
  rw [List.mem_singleton.mp member]
  exact a.consistent_report r.source d

theorem emissions_of_run (ran : r.run registry budget s = some (.ok summary, s')) :
    Emissions s.out summary.files s'.out ∧ ∀ f ∈ summary.files, f.Consistent := by
  cases isDir : s.out.files.isDir r.source with
  | true =>
      rcases run_accounts isDir ran with ⟨e, -, failed, -⟩ | ⟨plan, vs, -, visits, accounts, -⟩
      · cases failed
      · have accounts := accounts summary rfl
        exact ⟨emissions_of_visits visits accounts.reports, accounts.consistent⟩
  | false =>
      unfold run at ran
      split at ran
      · cases ran
      · next found => simp [FileSystem.isDir, found] at isDir
      · split at ran
        · cases ran
        · exact emissions_of_runUnit ran

theorem emissions_of_print (ran : r.print registry budget s = some (.ok summary, s')) :
    Emissions s.out summary.files s'.out ∧ ∀ f ∈ summary.files, f.Consistent := by
  unfold print at ran
  split at ran
  · cases ran
  · exact emissions_of_runUnit ran

/-- **Units that count as written.** The reports of a run, or of printing a unit, tell what has been
written, from first to last. Those that count as written are the reports of units that were, and
besides them only that of a unit that has stopped the run and had nothing to write. -/
theorem counts_written (ran : r.run registry budget s = some (.ok summary, s') ∨
      r.print registry budget s = some (.ok summary, s')) :
    Emissions s.out summary.files s'.out ∧
      ∀ f ∈ summary.files,
        (f ∈ summary.written ↔ f.Emitted ∨ f.status = .stopped ∧ f.bytes = 0) := by
  obtain ⟨emissions, consistent⟩ := ran.elim emissions_of_run emissions_of_print
  refine ⟨emissions, fun f member => ?_⟩
  rw [← (consistent f member).written_iff]
  simp [Summary.written, member]

theorem counts_written_mixedFiles :
    ∃ summary s',
      (appendRun "_gen").run mixedRegistry 9 mixedStart = some (.ok summary, s') ∧
      summary.written.map (fun f => (f.status, f.bytes)) = [(.written, 7), (.stopped, 0)] ∧
      Emissions mixedStart.out summary.files s'.out ∧
      ∀ f ∈ summary.files,
        (f ∈ summary.written ↔ f.Emitted ∨ f.status = .stopped ∧ f.bytes = 0) := by
  have isDir : mixedStart.out.files.isDir (appendRun "_gen").source = true := by decide +kernel
  have ended : ((appendRun "_gen").run mixedRegistry 9 mixedStart).bind (fun done =>
      done.1.toOption.map fun s => s.written.map fun f => (f.status, f.bytes)) =
        some [(.written, 7), (.stopped, 0)] := by
    have files : mixedStart.out.files = mixedFiles := rfl
    rw [run_of_isDir isDir, runDirectory, files, plan_mixedFiles]
    decide +kernel
  obtain ⟨⟨result, s'⟩, ran, ended⟩ := Option.bind_eq_some_iff.mp ended
  obtain ⟨summary, succeeded, written⟩ := Option.map_eq_some_iff.mp ended
  cases result with
  | error e => cases succeeded
  | ok summary' =>
      obtain rfl : summary' = summary := Option.some.inj succeeded
      exact ⟨summary', s', ran, written, counts_written (Or.inl ran)⟩

/-- A unit that stops the run and has no additions counts as written. -/
theorem written_stopped : ∃ summary s' f,
    ({ appendRun "_gen" with source := ⟨"src/c.rmc"⟩ } : Run).run mixedRegistry 9 mixedStart =
        some (.ok summary, s') ∧
      f ∈ summary.written ∧ f.destination = none ∧ f.hash = none ∧ f.bytes = 0 := by
  have ended : (({ appendRun "_gen" with source := ⟨"src/c.rmc"⟩ } : Run).run mixedRegistry 9
      mixedStart).bind (fun done => done.1.toOption.map fun (summary : Summary) =>
        summary.written.map fun f => (f.destination, f.hash, f.bytes)) =
          some [(none, none, 0)] := by
    decide +kernel
  obtain ⟨⟨result, s'⟩, ran, ended⟩ := Option.bind_eq_some_iff.mp ended
  obtain ⟨summary, succeeded, written⟩ := Option.map_eq_some_iff.mp ended
  cases result with
  | error e => cases succeeded
  | ok summary' =>
      obtain rfl : summary' = summary := Option.some.inj succeeded
      obtain ⟨f, reported, same⟩ := List.map_eq_singleton_iff.mp written
      obtain ⟨destination, rest⟩ := Prod.mk.inj same
      obtain ⟨hash, bytes⟩ := Prod.mk.inj rest
      exact ⟨summary', s', f, ran, reported ▸ List.mem_cons_self, destination, hash, bytes⟩

end Run

end Graft
