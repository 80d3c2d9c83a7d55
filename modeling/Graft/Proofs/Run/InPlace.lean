import Graft.Proofs.Run.Pipeline
import Graft.Proofs.Run.Visits

/-!
# Runs in place

A run in place writes every unit back to its own file. No two units stand in one file, so a visit
finds its unit as it was when the run started, and what it has written stays until the run ends.
This holds whatever the handlers do, and also if they keep a state.

So after a run that succeeds, the file of every unit that was rewritten holds the printed form of
the rewritten unit, `in_place_stores`, with one exception: an empty text is never written. If the
handlers have left neither a declaration nor documentation of the unit, its file keeps the old
text, and the report says that nothing was written, `in_place_keeps_emptied`.
-/

namespace Graft

open FileSystem (Changes Keeps)

namespace Run

variable {σ : Type} {r : Run} {p : Pipeline σ} {s s' : State σ} {v : Visit σ}
variable {vs front back : List (Visit σ)} {entries : List UnitEntry} {outputRoot : Option Path}
variable {o : Expansion.Outcome σ} {f : FileReport}

/-- A run that writes every unit back to its own file. -/
structure InPlace (r : Run) : Prop where
  output : r.output = none
  rewrites : r.settings.append = false

/-- A run in place has no output and moves no references. -/
theorem InPlace.unmoved (inPlace : r.InPlace) {fs : FileSystem} {plan : Plan}
    (planned : r.plan fs = .ok plan) : plan.outputRoot = none ∧ plan.relocations = none := by
  obtain ⟨sourceRoot, excluded, -, output, -, -, -, -, relocations⟩ := plan_eq_ok_iff.mp planned
  have none : plan.outputRoot = none := by
    rw [absoluteOutput_eq_ok output, inPlace.output, Option.map_none]
  rw [none] at relocations
  exact ⟨none, relocations⟩

theorem InPlace.entryDestination (inPlace : r.InPlace) (e : UnitEntry) :
    r.entryDestination none e = .file e.path := by
  simp only [Run.entryDestination, inPlace.rewrites]

/-! ### One unit -/

/-- A text counts the passes of its expansion. -/
theorem applied_of_textOf {g : Generated} (generated : r.textOf p o = .ok g) :
    g.applied = o.applied := by
  unfold textOf at generated
  split at generated
  · cases generated
  · split at generated
    · cases generated
      rfl
    · next u _ =>
        cases printed : r.printRelocated p.relocations u with
        | error e =>
            rw [printed] at generated
            cases generated
        | ok text =>
            rw [printed] at generated
            cases generated
            rfl

/-- A unit on which a handler has made a pass is printed as it then is. -/
theorem InPlace.textOf_eq (inPlace : r.InPlace) (unmoved : p.relocations = none)
    (applied : 0 < o.applied) (succeeded : ∀ f, o.ending ≠ .failed f) :
    r.textOf p o =
      .ok ⟨some (r.frontend.print o.unit), decide (o.ending = .stopped), o.applied⟩ := by
  have emitted : r.emitted? o = some o.unit := by
    simp [emitted?, inPlace.rewrites, Nat.ne_of_gt applied]
  rw [textOf]
  split
  · next f failed => exact absurd failed (succeeded f)
  · simp only [emitted, printRelocated, unmoved, Except.map]

/-- A visit in place that made passes over its unit comes to the printed form of the expansion. -/
theorem Visit.Made.answer_in_place (made : v.Made r p none) (inPlace : r.InPlace)
    (unmoved : p.relocations = none) (reported : v.result = .ok f) (kept : f.status ≠ .failed)
    (applied : 0 < f.applied) :
    ∃ o stopped, r.Expands p v.before.handlers v.before.out.files v.entry o ∧
      o.applied = f.applied ∧
      v.answer.result = .ok ⟨some (r.frontend.print o.unit), stopped, o.applied⟩ := by
  obtain ⟨rfl, -, -⟩ := made.report reported
  cases result : v.answer.result with
  | error e =>
      have failed : v.answer.fails = true := by rw [Answer.fails, result]
      exact absurd ((v.answer.status_report _ _).2.mpr failed) kept
  | ok g =>
      have counted : (v.answer.report v.entry.path
          (r.entryDestination none v.entry)).applied = g.applied := by
        rw [Answer.report, result]
        rfl
      rcases answerAt_cases inPlace.rewrites made.answered with
        ⟨⟨e, failed⟩, -⟩ | ⟨o, generated, expands⟩
      · rw [result] at failed
        cases failed
      · rw [result] at generated
        have same := applied_of_textOf generated.symm
        rw [counted, same] at applied
        have succeeded : ∀ f, o.ending ≠ .failed f := by
          intro f failed
          rw [textOf_of_failed failed] at generated
          cases generated
        rw [inPlace.textOf_eq unmoved applied succeeded] at generated
        exact ⟨o, _, (expands o).mpr rfl, by rw [counted, same], generated⟩

/-- A visit in place that made passes over its unit leaves the printed form of the expansion in
the file, unless that is empty. -/
theorem Visit.Made.stores (made : v.Made r p none) (inPlace : r.InPlace)
    (unmoved : p.relocations = none) (reported : v.result = .ok f) (kept : f.status ≠ .failed)
    (applied : 0 < f.applied) :
    ∃ o, r.Expands p v.before.handlers v.before.out.files v.entry o ∧ o.applied = f.applied ∧
      f.bytes = (r.frontend.print o.unit).utf8ByteSize ∧
      (r.frontend.print o.unit = "" → f.destination = none ∧ v.after.out = v.before.out) ∧
      (r.frontend.print o.unit ≠ "" → f.destination = some (.file v.entry.path) ∧
        v.after.out.files.readText v.entry.path = .ok (r.frontend.print o.unit)) := by
  obtain ⟨o, stopped, expands, counted, result⟩ :=
    made.answer_in_place inPlace unmoved reported kept applied
  obtain ⟨rfl, -, writes⟩ := made.report reported
  have texts : v.answer.texts = Sink.State.nonempty (r.frontend.print o.unit) := by
    rw [Answer.texts, result]
    rfl
  have report : v.answer.report v.entry.path (.file v.entry.path) =
      reportOf v.entry.path (.file v.entry.path)
        ⟨some (r.frontend.print o.unit), stopped, o.applied⟩
        (r.frontend.print o.unit).utf8ByteSize v.answer.reports := by
    rw [Answer.report, result]
    rfl
  rw [texts, Sink.State.writes_nonempty_iff, inPlace.entryDestination] at writes
  rw [inPlace.entryDestination] at counted ⊢
  rw [report] at counted ⊢
  refine ⟨o, expands, counted, rfl, ?_, ?_⟩
  · intro empty
    rw [Sink.State.write, if_pos empty] at writes
    exact ⟨by rw [empty]; rfl, (Prod.mk.inj writes).2.symm⟩
  · intro given
    obtain ⟨place, ready, there⟩ := Sink.State.ready_of_write_file given writes
    have size : 0 < (r.frontend.print o.unit).utf8ByteSize :=
      Nat.pos_of_ne_zero fun zero => given (String.utf8ByteSize_eq_zero_iff.mp zero)
    exact ⟨if_pos size, ready.readText there⟩

/-! ### Every unit has its own file -/

/-- Visits in place touch the files of their units only. -/
theorem Visits.changes_in_place (visits : Visits r p none s entries vs s') (inPlace : r.InPlace)
    (succeeded : ∀ v ∈ vs, ∃ f, v.result = .ok f) :
    Changes (fun place => ∃ v ∈ vs, s'.out.files.resolve v.entry.path = .ok place)
      s.out.files s'.out.files := by
  induction visits with
  | done => exact .refl
  | @last v rest made halts =>
      obtain ⟨f, reported⟩ := succeeded v List.mem_cons_self
      obtain ⟨-, -, writes⟩ := made.report reported
      rw [inPlace.entryDestination] at writes
      exact writes.changes_resolved.mono fun place resolved => ⟨v, List.mem_cons_self, resolved⟩
  | @next v rest vs s' made goes more ih =>
      obtain ⟨⟨f, reported⟩, others⟩ := List.forall_mem_cons.mp succeeded
      obtain ⟨-, -, writes⟩ := made.report reported
      rw [inPlace.entryDestination] at writes
      have later := ih others
      refine (writes.changes_resolved.mono fun place resolved => ?_).trans
        (later.mono fun place touched => ?_)
      · exact ⟨v, List.mem_cons_self, later.keeps.resolve resolved⟩
      · obtain ⟨w, member, resolved⟩ := touched
        exact ⟨w, List.mem_cons_of_mem _ member, resolved⟩

/-- The units of different visits are different. -/
theorem Visits.entry_ne (visits : Visits r p outputRoot s entries (front ++ v :: back) s')
    (distinct : entries.Nodup) : ∀ w ∈ front ++ back, w.entry ≠ v.entry := by
  have nodup := visits.initial.sublist.nodup distinct
  rw [List.map_append, List.map_cons, List.nodup_middle, ← List.map_append,
    List.nodup_cons] at nodup
  exact fun w member same => nodup.1 (same ▸ List.mem_map_of_mem member)

/-- A visit in place finds its unit as it was at the start, and the file as it leaves it is the
file at the end. -/
theorem Visits.entry_in_place (visits : Visits r p none s entries (front ++ v :: back) s')
    (inPlace : r.InPlace) (succeeded : ∀ w ∈ front ++ v :: back, ∃ f, w.result = .ok f)
    (named : s.out.files.root.wellNamed = true) {survey : Survey}
    (discovered : survey.discover s.out.files = .ok entries) :
    v.before.out.files.entry v.entry.path = s.out.files.entry v.entry.path ∧
      s'.out.files.entry v.entry.path = v.after.out.files.entry v.entry.path := by
  cases readable : FileSystem.checkText v.entry.path with
  | error fault => simp only [FileSystem.entry_of_unreadable readable, and_self]
  | ok u =>
      obtain ⟨early, here, late⟩ : (∀ w ∈ front, ∃ f, w.result = .ok f) ∧
          (∃ f, v.result = .ok f) ∧ ∀ w ∈ back, ∃ f, w.result = .ok f := by
        simpa only [List.forall_mem_append, List.forall_mem_cons] using succeeded
      have found : ∀ w ∈ front ++ v :: back, w.entry ∈ entries :=
        fun w inside => visits.initial.subset (List.mem_map_of_mem inside)
      have other := visits.entry_ne ((Survey.nodup_discover named discovered).of_map _)
      obtain ⟨place, content, resolved, file⟩ :=
        Survey.file_of_mem_discover named discovered (found v (by simp)) readable
      -- in no later state of the files does the path of another unit lead to this place
      have apart : ∀ w ∈ front ++ back, ∀ touched fs, Keeps touched s.out.files fs →
          fs.resolve w.entry.path ≠ .ok place := by
        intro w inside touched fs kept there
        have found' := found w (((List.sublist_cons_self v back).append_left front).subset inside)
        exact other w inside (Survey.eq_of_resolve named discovered found' (found v (by simp))
          (Survey.resolve_of_keeps named discovered found' kept there) resolved)
      obtain ⟨first, rest, second⟩ := visits.split
      have before := first.changes_in_place inPlace early
      have after := second.changes_in_place inPlace late
      obtain ⟨f, reported⟩ := here
      obtain ⟨-, -, writes⟩ := (visits.made v (by simp)).report reported
      have own : Changes (fun _ => True) s.out.files v.after.out.files :=
        (before.mono fun _ _ => trivial).trans (writes.changes.mono fun _ _ => trivial)
      obtain ⟨content', file', -⟩ := own.keeps.file place content file
      constructor
      · refine before.keeps.entry resolved file ?_
        rintro ⟨w, inside, there⟩
        exact apart w (List.mem_append_left _ inside) _ _ before.keeps there
      · refine after.keeps.entry (own.keeps.resolve resolved) file' ?_
        rintro ⟨w, inside, there⟩
        exact apart w (List.mem_append_right _ inside) _ _
          (own.trans (after.mono fun _ _ => trivial)).keeps there

/-! ### Runs -/

variable {registry : Registry (Handler σ)} {budget : Nat} {summary : Summary}

/-- **Runs in place store what the handlers made.** After a run in place that succeeds, take a unit
that is not reported as given up and on which a pass was made. It has been expanded as its file was
at the start, and the file holds the printed form of the expansion. Only if that is empty, nothing
was written and the file holds what it held. -/
theorem in_place_stores (wellFormed : s.out.files.WellFormed)
    (isDir : s.out.files.isDir r.source = true) (inPlace : r.InPlace)
    (ran : r.run registry budget s = some (.ok summary, s')) :
    ∃ plan vs, r.plan s.out.files = .ok plan ∧
      Visits r ⟨registry, budget, none⟩ none s plan.entries vs s' ∧
      vs.map (·.result) = summary.files.map .ok ∧
      ∀ v ∈ vs, ∀ f, v.result = .ok f → f.status ≠ .failed → 0 < f.applied →
        ∃ content o, s.out.files.readText v.entry.path = .ok content ∧
          r.Expands ⟨registry, budget, none⟩ v.before.handlers s.out.files v.entry o ∧
          o.applied = f.applied ∧ f.bytes = (r.frontend.print o.unit).utf8ByteSize ∧
          (r.frontend.print o.unit ≠ "" → f.destination = some (.file v.entry.path) ∧
            s'.out.files.readText v.entry.path = .ok (r.frontend.print o.unit)) ∧
          (r.frontend.print o.unit = "" → f.destination = none ∧
            s'.out.files.readText v.entry.path = .ok content) := by
  rcases visits_of_run isDir ran with ⟨err, -, failed, -⟩ | ⟨plan, vs, planned, visits, concludes⟩
  · cases failed
  cases concludes with
  | summary results =>
      obtain ⟨excluded, -, -, discovered⟩ := plan_eq_ok planned
      obtain ⟨root, unmoved⟩ := inPlace.unmoved planned
      rw [root, unmoved] at visits
      refine ⟨plan, vs, planned, visits, results, ?_⟩
      intro v member f reported kept applied
      obtain ⟨o, expands, counted, bytes, empty, given⟩ :=
        (visits.made v member).stores inPlace rfl reported kept applied
      obtain ⟨front, back, rfl⟩ := List.append_of_mem member
      have succeeded : ∀ w ∈ front ++ v :: back, ∃ f, w.result = .ok f := fun w inside =>
        (reported_of_mem results inside).imp fun f found => found.2
      obtain ⟨found, stays⟩ :=
        visits.entry_in_place inPlace succeeded wellFormed.root discovered
      have read := readText_congr found
      have stored := readText_congr stays
      obtain ⟨content, u, here, parsed, expanded⟩ := expands
      rw [read] at here
      refine ⟨content, o, here, ⟨content, u, here, parsed, expanded⟩, counted, bytes, ?_, ?_⟩
      · intro text
        rw [stored]
        exact given text
      · intro text
        obtain ⟨destination, untouched⟩ := empty text
        rw [stored, untouched, read]
        exact ⟨destination, here⟩

/-- A run that writes the units of `src` back to their files. -/
def inPlaceRun : Run := ⟨Sexp.frontend, ⟨"src"⟩, none, .standard⟩

theorem in_place_stores_unitFiles :
    ∃ summary s' e o, inPlaceRun.run addingRegistry 9 unitStart = some (.ok summary, s') ∧
      summary.files.map (fun f => (f.status, f.applied, f.bytes)) = [(.written, 1, 30)] ∧
      inPlaceRun.Expands ⟨addingRegistry, 9, none⟩ () unitFiles e o ∧
      s'.out.files.readText e.path = .ok (Sexp.frontend.print o.unit) := by
  have ended : (inPlaceRun.run addingRegistry 9 unitStart).bind (fun done =>
      done.1.toOption.map fun s => s.files.map fun f => (f.status, f.applied, f.bytes)) =
        some [(.written, 1, 30)] := by
    decide +kernel
  obtain ⟨⟨result, s'⟩, ran, ended⟩ := Option.bind_eq_some_iff.mp ended
  obtain ⟨summary, succeeded, ended⟩ := Option.map_eq_some_iff.mp ended
  cases result with
  | error e => cases succeeded
  | ok summary' =>
      obtain rfl : summary' = summary := Option.some.inj succeeded
      obtain ⟨plan, vs, -, -, results, stores⟩ := in_place_stores
        ⟨by decide +kernel, by decide⟩ (by decide +kernel) ⟨rfl, rfl⟩ ran
      obtain ⟨f, files, report⟩ := List.map_eq_singleton_iff.mp ended
      obtain ⟨status, applied, bytes⟩ : f.status = .written ∧ f.applied = 1 ∧ f.bytes = 30 := by
        simpa using report
      obtain ⟨v, member, reported⟩ := (mem_files_iff results).mp (files ▸ List.mem_cons_self)
      obtain ⟨content, o, -, expands, -, size, given, -⟩ :=
        stores v member f reported (by simp [status]) (by simp [applied])
      refine ⟨summary', s', v.entry, o, ran, ended, expands, (given ?_).2⟩
      intro empty
      rw [bytes, empty] at size
      cases size

/-- A handler that deletes what it stands on. -/
def deleting : Handler Unit := fun _ phase _ state =>
  let edits := match phase with
    | .pre => [Edit.delete]
    | .post => []
  ⟨state, edits, [], .ok .continue⟩

def deletingRegistry : Registry (Handler Unit) := .ofList [("m", deleting)]

/-- A unit from which everything is deleted prints to nothing, and its file keeps the old text. -/
theorem in_place_keeps_emptied :
    (((unitFiles.loadUnit Sexp.frontend ⟨"/src/a.rmc"⟩).toOption.bind
        (Expansion.expand deletingRegistry false 9 ⟨(), [], 0⟩)).map
          fun o => (o.applied, Sexp.frontend.print o.unit)) = some (1, "") ∧
      (inPlaceRun.run deletingRegistry 9 unitStart).bind (fun done => done.1.toOption.map fun s =>
        (s.files.map (fun f => (f.status, f.applied, f.bytes)),
          (done.2.out.files.readText ⟨"/src/a.rmc"⟩).toOption)) =
        some ([(.unchanged, 1, 0)], some ";; macro:use m\n(fn A)\n") := by
  constructor <;> decide +kernel

end Run

end Graft
