import Graft.Proofs.Run.Course

/-!
# The visits of a run over a directory

A run over a directory makes one visit after the other. Each visit finds the state that the one
before has left, loads its unit from the files as they then are, and comes to a report or to the
error that ends the run. `Visits` puts this down for handlers that may keep a state, and for units
that earlier visits may have written to.

The visits say all about a run: its summary has their reports, in order, and its files and handlers
are what the last visit has left, `visits_of_run`. They do not depend on the units that come after
the last of them, `Visits.extend`. If the handlers keep no state and no unit is written to, visits
are a course, which is easier to work with.
-/

namespace Graft

open Sink.State (row)

namespace Run

variable {σ : Type} {r : Run} {p : Pipeline σ} {s s' : State σ} {outputRoot : Option Path}
variable {e : UnitEntry} {entries rest : List UnitEntry} {loaded : Except Error SourceUnit}
variable {g : Progress σ} {result : Except Error FileReport} {files : List FileReport}
variable {f : FileReport}

/-- What a run does with one unit: the state that it finds, what it comes to, and the state that it
leaves. -/
structure Visit (σ : Type) where
  entry : UnitEntry
  before : State σ
  answer : Answer
  result : Except Error FileReport
  after : State σ

variable {v : Visit σ} {vs : List (Visit σ)}

/-- A visit that a run makes: it loads the unit from the files as they are, answers it, and writes
the answer. -/
structure Visit.Made (r : Run) (p : Pipeline σ) (outputRoot : Option Path) (v : Visit σ) :
    Prop where
  answered : r.answerAt p v.before.handlers v.before.out.files v.entry = some v.answer
  processed : r.process p v.before v.entry.path
    (v.before.out.files.loadUnit r.frontend v.entry.path) (r.entryDestination outputRoot v.entry) =
      some (v.result, v.after)

/-- The answer of a visit is written to where its unit goes. -/
theorem Visit.Made.finished (made : v.Made r p outputRoot) : ∃ handlers,
    v.answer.finish v.entry.path (r.entryDestination outputRoot v.entry) ⟨v.before.out, handlers⟩ =
      (v.result, v.after) := by
  rcases process_cases r p v.before v.entry.path
    (v.before.out.files.loadUnit r.frontend v.entry.path)
    (r.entryDestination outputRoot v.entry) with ⟨-, spent⟩ | ⟨a, handlers, answered, processed⟩
  · rw [made.processed] at spent
    cases spent
  · obtain rfl : a = v.answer := Option.some.inj (answered.symm.trans made.answered)
    exact ⟨handlers, Option.some.inj (processed.symm.trans made.processed)⟩

/-- The report of a visit is that of its answer, whose text it has written. -/
theorem Visit.Made.report (made : v.Made r p outputRoot) (reported : v.result = .ok f) :
    f = v.answer.report v.entry.path (r.entryDestination outputRoot v.entry) ∧
      v.answer.settled = true ∧
      v.before.out.Writes (row (r.entryDestination outputRoot v.entry) v.answer.texts)
        v.after.out := by
  obtain ⟨handlers, finished⟩ := made.finished
  rw [reported] at finished
  obtain ⟨settled, same, -, writes⟩ := finish_eq_ok_iff.mp finished
  exact ⟨same, settled, writes⟩

/-- Whether a run ends with what a visit comes to. -/
def haltsWith (r : Run) : Except Error FileReport → Bool
  | .error _ => true
  | .ok f => f.status = .stopped || (r.settings.failFast && f.isFailed)

/-- The visits that a run makes over units, up to the first that ends it. -/
inductive Visits (r : Run) (p : Pipeline σ) (outputRoot : Option Path) :
    State σ → List UnitEntry → List (Visit σ) → State σ → Prop
  | done {s : State σ} : Visits r p outputRoot s [] [] s
  | last {v : Visit σ} {rest : List UnitEntry} (made : v.Made r p outputRoot)
      (halts : r.haltsWith v.result = true) :
      Visits r p outputRoot v.before (v.entry :: rest) [v] v.after
  | next {v : Visit σ} {rest : List UnitEntry} {vs : List (Visit σ)} {s' : State σ}
      (made : v.Made r p outputRoot) (goes : r.haltsWith v.result = false)
      (more : Visits r p outputRoot v.after rest vs s') :
      Visits r p outputRoot v.before (v.entry :: rest) (v :: vs) s'

/-! ### Visits and the walk -/

/-- The progress of a run after one more visit. -/
def Progress.visited (g : Progress σ) (result : Except Error FileReport) (s' : State σ) :
    Progress σ :=
  match result with
  | .error e => { g with state := s', fatal := some e }
  | .ok f => g.after s' f (f.status = .stopped)

@[simp] theorem state_visited (g : Progress σ) (result : Except Error FileReport)
    (s' : State σ) : (g.visited result s').state = s' := by
  cases result <;> rfl

theorem visitEntry_of_process
    (processed : r.process p g.state e.path loaded (r.entryDestination outputRoot e) =
      some (result, s')) :
    r.visitEntry p outputRoot g e loaded = (g.visited result s', r.haltsWith result) := by
  rw [visitEntry, processed]
  cases result with
  | error err => rfl
  | ok f =>
      cases status : f.status <;>
        simp [Progress.visited, Progress.after, haltsWith, FileReport.isFailed, Summary.push,
          status]

/-- The progress of a run after some visits. -/
def Progress.through (g : Progress σ) (vs : List (Visit σ)) : Progress σ :=
  vs.foldl (fun g v => g.visited v.result v.after) g

/-- A walk makes the visits that there are. -/
theorem Visits.walk_eq (visits : Visits r p outputRoot s entries vs s') {survey : Survey}
    (frontend : survey.frontend = r.frontend) (start : g.state = s) :
    survey.walk (fun g => g.state.out.files) (r.visitEntry p outputRoot) g entries =
      g.through vs := by
  induction visits generalizing g with
  | done => rfl
  | last made halts =>
      have processed := made.processed
      rw [← start] at processed
      rw [Survey.walk, frontend, visitEntry_of_process processed, halts]
      rfl
  | next made goes more ih =>
      have processed := made.processed
      rw [← start] at processed
      rw [Survey.walk, frontend, visitEntry_of_process processed, goes]
      exact ih (state_visited ..)

/-- A walk that does not spend the budget makes visits. -/
theorem exists_visits {survey : Survey} (frontend : survey.frontend = r.frontend)
    (unspent : (survey.walk (fun g => g.state.out.files) (r.visitEntry p outputRoot) g
      entries).spent = false) : ∃ vs s', Visits r p outputRoot g.state entries vs s' := by
  induction entries generalizing g with
  | nil => exact ⟨[], g.state, .done⟩
  | cons e rest ih =>
      rcases process_cases r p g.state e.path (g.state.out.files.loadUnit r.frontend e.path)
          (r.entryDestination outputRoot e) with ⟨-, spent⟩ | ⟨a, handlers, answered, processed⟩
      · rw [Survey.walk, frontend, visitEntry, spent] at unspent
        cases unspent
      · generalize a.finish e.path _ _ = done at processed
        obtain ⟨result, s''⟩ := done
        let v : Visit σ := ⟨e, g.state, a, result, s''⟩
        have made : v.Made r p outputRoot := ⟨answered, processed⟩
        cases halts : r.haltsWith v.result with
        | true => exact ⟨[v], v.after, .last made halts⟩
        | false =>
            rw [Survey.walk, frontend, visitEntry_of_process made.processed, halts] at unspent
            obtain ⟨vs, s', more⟩ := ih unspent
            rw [state_visited] at more
            exact ⟨v :: vs, s', .next made halts more⟩

/-! ### What visits come to -/

theorem ok_of_goes (goes : r.haltsWith result = false) : ∃ f, result = .ok f := by
  cases result with
  | error e => cases goes
  | ok f => exact ⟨f, rfl⟩

section Reported

variable (results : vs.map (·.result) = files.map .ok)

include results

theorem mem_files_iff : f ∈ files ↔ ∃ v ∈ vs, v.result = .ok f := by
  have inside : (.ok f : Except Error FileReport) ∈ vs.map (·.result) ↔ f ∈ files := by
    rw [results, List.mem_map]
    exact ⟨fun ⟨f', member, same⟩ => Except.ok.inj same ▸ member, fun member => ⟨f, member, rfl⟩⟩
  rw [← inside, List.mem_map]

theorem reported_of_mem (member : v ∈ vs) : ∃ f ∈ files, v.result = .ok f := by
  have inside : v.result ∈ files.map .ok := results ▸ List.mem_map_of_mem member
  obtain ⟨f, here, same⟩ := List.mem_map.mp inside
  exact ⟨f, here, same.symm⟩

/-- Reports of visits are split as the visits are. -/
theorem files_concat {front : List (Visit σ)} (whole : vs = front ++ [v]) :
    ∃ before f, files = before ++ [f] ∧ front.map (·.result) = before.map .ok ∧
      v.result = .ok f := by
  rw [whole, List.map_append, eq_comm, List.map_eq_append_iff] at results
  obtain ⟨before, last, rfl, first, second⟩ := results
  obtain ⟨f, rfl, same⟩ := List.map_eq_singleton_iff.mp second
  exact ⟨before, f, rfl, first.symm, same.symm⟩

end Reported

/-- All visits come to reports, or all but the last. -/
theorem Visits.result_cases (visits : Visits r p outputRoot s entries vs s') :
    (∃ files : List FileReport, vs.map (·.result) = files.map .ok) ∨
      ∃ front v e, ∃ files : List FileReport, vs = front ++ [v] ∧
        front.map (·.result) = files.map .ok ∧ v.result = .error e := by
  induction visits with
  | done => exact Or.inl ⟨[], rfl⟩
  | @last v rest made halts =>
      cases result : v.result with
      | ok f => exact Or.inl ⟨[f], by simp [result]⟩
      | error e => exact Or.inr ⟨[], v, e, [], rfl, rfl, result⟩
  | @next v rest vs s' made goes more ih =>
      obtain ⟨f, result⟩ := ok_of_goes goes
      rcases ih with ⟨files, results⟩ | ⟨front, last, e, files, rfl, results, broken⟩
      · exact Or.inl ⟨f :: files, by simp [result, results]⟩
      · exact Or.inr ⟨v :: front, last, e, f :: files, rfl, by simp [result, results], broken⟩

/-- The last visit leaves the state in which the run ends. -/
theorem Visits.state_through (visits : Visits r p outputRoot s entries vs s')
    (start : g.state = s) : (g.through vs).state = s' := by
  induction visits generalizing g with
  | done => exact start
  | last made halts => exact state_visited ..
  | next made goes more ih => exact ih (state_visited ..)

/-- Visits that come to reports add these to the summary. -/
theorem through_of_ok (results : vs.map (·.result) = files.map .ok) :
    (g.through vs).fatal = g.fatal ∧ (g.through vs).summary =
      ⟨g.summary.files ++ files,
        g.summary.stopped || files.any fun f => f.status = .stopped⟩ := by
  induction vs generalizing g files with
  | nil =>
      obtain rfl : files = [] := by simpa using results.symm
      simp [Progress.through]
  | cons v vs ih =>
      cases files with
      | nil => cases results
      | cons f files =>
          obtain ⟨result, results⟩ : v.result = .ok f ∧ vs.map (·.result) = files.map .ok :=
            List.cons.inj results
          obtain ⟨fatal, summary⟩ := ih (g := g.visited v.result v.after) results
          have step : g.through (v :: vs) = (g.visited v.result v.after).through vs := rfl
          rw [step, fatal, summary, result]
          simp [Progress.visited, Progress.after, Bool.or_assoc]

/-- A visit that breaks the run leaves its error. -/
theorem through_concat_of_error {err : Error} (broken : v.result = .error err) :
    (g.through (vs ++ [v])).fatal = some err := by
  have step : g.through (vs ++ [v]) = (g.through vs).visited v.result v.after := by
    simp [Progress.through]
  rw [step, broken]
  rfl

/-- Visits are made of the first units, in order. -/
theorem Visits.initial (visits : Visits r p outputRoot s entries vs s') :
    vs.map (·.entry) <+: entries := by
  induction visits with
  | done => exact List.prefix_refl _
  | last => simp
  | next made goes more ih => simpa using ih

theorem Visits.made (visits : Visits r p outputRoot s entries vs s') :
    ∀ v ∈ vs, v.Made r p outputRoot := by
  induction visits with
  | done => simp
  | last made => simpa using made
  | next made goes more ih => exact List.forall_mem_cons.mpr ⟨made, ih⟩

/-- Only the last visit ends the run, and if units are left it does. -/
theorem Visits.halts_cases (visits : Visits r p outputRoot s entries vs s') :
    (vs.map (·.entry) = entries ∧ ∀ v ∈ vs, r.haltsWith v.result = false) ∨
      ∃ front v, vs = front ++ [v] ∧ r.haltsWith v.result = true ∧
        ∀ w ∈ front, r.haltsWith w.result = false := by
  induction visits with
  | done => exact Or.inl ⟨rfl, by simp⟩
  | @last v rest made halts => exact Or.inr ⟨[], v, rfl, halts, by simp⟩
  | @next v rest vs s' made goes more ih =>
      rcases ih with ⟨all, others⟩ | ⟨front, last, rfl, halts, others⟩
      · exact Or.inl ⟨by simp [all], List.forall_mem_cons.mpr ⟨goes, others⟩⟩
      · exact Or.inr ⟨v :: front, last, rfl, halts, List.forall_mem_cons.mpr ⟨goes, others⟩⟩

/-- Visits that end the run are made whatever units come after them. -/
theorem Visits.extend (visits : Visits r p outputRoot s entries vs s')
    (ended : ∃ v, vs.getLast? = some v ∧ r.haltsWith v.result = true) (later : List UnitEntry) :
    Visits r p outputRoot s (vs.map (·.entry) ++ later) vs s' := by
  induction visits with
  | done =>
      obtain ⟨v, last, -⟩ := ended
      cases last
  | last made halts => exact .last made halts
  | @next v rest vs s' made goes more ih =>
      refine .next made goes (ih ?_)
      obtain ⟨w, last, halts⟩ := ended
      cases vs with
      | nil =>
          obtain rfl : v = w := by simpa using last
          rw [goes] at halts
          cases halts
      | cons v' vs => exact ⟨w, by rwa [List.getLast?_cons_cons] at last, halts⟩

/-- The visits before one of them have led to the state that it finds, and those after it start
from the state that it leaves. -/
theorem Visits.split {front back : List (Visit σ)}
    (visits : Visits r p outputRoot s entries (front ++ v :: back) s') :
    Visits r p outputRoot s (front.map (·.entry)) front v.before ∧
      ∃ rest, Visits r p outputRoot v.after rest back s' := by
  induction front generalizing s entries with
  | nil =>
      cases visits with
      | last => exact ⟨.done, [], .done⟩
      | next made goes more => exact ⟨.done, _, more⟩
  | cons w front ih =>
      generalize whole : w :: front ++ v :: back = all at visits
      cases visits with
      | done => cases whole
      | last => simp at whole
      | next made goes more =>
          obtain ⟨rfl, rfl⟩ := List.cons.inj whole
          obtain ⟨first, second⟩ := ih more
          exact ⟨.next made goes first, second⟩

/-! ### Runs -/

/-- What visits make of a run: a summary of their reports, or the error of the last of them. -/
inductive Concludes (vs : List (Visit σ)) : Except Error Summary → Prop
  | summary {files : List FileReport} (results : vs.map (·.result) = files.map .ok) :
      Concludes vs (.ok ⟨files, files.any fun f => f.status = .stopped⟩)
  | error {front : List (Visit σ)} {v : Visit σ} {err : Error} {files : List FileReport}
      (whole : vs = front ++ [v]) (results : front.map (·.result) = files.map .ok)
      (broken : v.result = .error err) : Concludes vs (.error err)

variable {registry : Registry (Handler σ)} {budget : Nat} {outcome : Except Error Summary}

/-- **Visits of runs.** A run over a directory has no plan and changes nothing, or it makes visits
over the units of its plan, which bring it from its first state to its last and give its result. -/
theorem visits_of_run (isDir : s.out.files.isDir r.source = true)
    (ran : r.run registry budget s = some (outcome, s')) :
    (∃ err, r.plan s.out.files = .error err ∧ outcome = .error err ∧ s' = s) ∨
      ∃ plan vs, r.plan s.out.files = .ok plan ∧
        Visits r ⟨registry, budget, plan.relocations⟩ plan.outputRoot s plan.entries vs s' ∧
        Concludes vs outcome := by
  rw [run_of_isDir isDir, runDirectory] at ran
  cases planned : r.plan s.out.files with
  | error err =>
      rw [planned] at ran
      cases ran
      exact Or.inl ⟨err, rfl, rfl, rfl⟩
  | ok plan =>
      obtain ⟨excluded, -, survey, -⟩ := plan_eq_ok planned
      have frontend : plan.survey.frontend = r.frontend := by rw [survey, frontend_survey]
      rw [planned] at ran
      simp only at ran
      split at ran
      · cases ran
      · next unspent =>
          obtain ⟨vs, last, visits⟩ := exists_visits frontend (Bool.eq_false_iff.mpr unspent)
          have reached := visits.state_through rfl
          refine Or.inr ⟨plan, vs, rfl, ?_⟩
          rw [visits.walk_eq frontend rfl] at ran
          rcases visits.result_cases with
            ⟨files, results⟩ | ⟨front, v, err, files, rfl, results, broken⟩
          · obtain ⟨fatal, summary⟩ := through_of_ok (g := ⟨s, .empty, none, false⟩) results
            rw [fatal, summary, reached] at ran
            cases ran
            exact ⟨visits, .summary results⟩
          · rw [through_concat_of_error broken, reached] at ran
            cases ran
            exact ⟨visits, .error rfl results broken⟩

end Run

end Graft
