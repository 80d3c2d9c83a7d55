import Graft.Proofs.Expansion.Projection
import Graft.Proofs.Run.Plan

/-!
# The course of a run over a directory

What a run does with a loaded unit falls into two parts: an answer, which is a text or an error
together with reports and touches nothing, and the write of that text. If the handlers keep no
state, the answer depends on the unit alone.

So a run over the units of a directory that succeeds has a course: the units up to the first that
ends the run, each with its answer. The summary has the reports of these answers, and the files
have changed by the writes of their texts, one after the other. A course, and writes that succeed,
also make a run that succeeds.
-/

namespace Graft

open FileSystem (Keeps MayLeadTo)
open Sink.State (Apart row)

namespace Run

variable {σ : Type} {r : Run} {p : Pipeline σ} {s s' : State σ} {d : Destination} {path : Path}
variable {loaded : Except Error SourceUnit} {out out' : Sink.State}

/-! ### Answers -/

/-- What a run comes to for one unit. -/
structure Answer where
  result : Except Error Generated
  reports : List Report

namespace Answer

/-- Whether a handler has stopped the run. -/
def stops (a : Answer) : Bool :=
  match a.result with
  | .ok g => g.stopped
  | .error _ => false

def fails (a : Answer) : Bool :=
  match a.result with
  | .ok _ => false
  | .error _ => true

/-- Whether the run can go on to report the unit. -/
def settled (a : Answer) : Bool :=
  match a.result with
  | .ok _ => true
  | .error e => e.isFileScoped

/-- The report of the unit, once its text is written. -/
def report (path : Path) (d : Destination) (a : Answer) : FileReport :=
  match a.result with
  | .ok g => reportOf path d g (g.text.getD "").utf8ByteSize a.reports
  | .error e => .ofFailure path e a.reports

/-- The text to write: none for an error, nor for a text that is empty. -/
def texts (a : Answer) : List String :=
  match a.result with
  | .ok g => g.text.elim [] Sink.State.nonempty
  | .error _ => []

/-- There is at most one text to write, and it is not empty. -/
theorem texts_cases (a : Answer) : a.texts = [] ∨ ∃ text, text ≠ "" ∧ a.texts = [text] := by
  unfold texts
  cases a.result with
  | error e => exact Or.inl rfl
  | ok g =>
      cases text? : g.text with
      | none => exact Or.inl (by simp [text?])
      | some text =>
          by_cases empty : text = ""
          · exact Or.inl (by simp [text?, Sink.State.nonempty, empty])
          · exact Or.inr ⟨text, empty, by simp [text?, Sink.State.nonempty, empty]⟩

theorem given_of_mem_texts {a : Answer} {text : String} (member : text ∈ a.texts) : text ≠ "" := by
  rcases a.texts_cases with none | ⟨text', given, one⟩
  · simp [none] at member
  · rw [one, List.mem_singleton] at member
    rwa [member]

theorem status_report (a : Answer) (path : Path) (d : Destination) :
    ((a.report path d).status = .stopped ↔ a.stops = true) ∧
      ((a.report path d).status = .failed ↔ a.fails = true) := by
  unfold report stops fails
  cases a.result with
  | error e => simp [FileReport.ofFailure]
  | ok g =>
      simp only [reportOf]
      by_cases stopped : g.stopped = true
      · simp [stopped]
      · rw [if_neg stopped]
        split <;> simp [stopped]

theorem path_report (a : Answer) (path : Path) (d : Destination) :
    (a.report path d).path = path := by
  unfold report
  split <;> rfl

end Answer

/-- The answer for a loaded unit from handlers in a state. -/
def answer (r : Run) (p : Pipeline σ) (handlers : σ) (loaded : Except Error SourceUnit) :
    Option Answer :=
  match loaded with
  | .error e => some ⟨.error e, []⟩
  | .ok u => (r.generate p handlers u).map fun (result, reports, _) => ⟨result, reports⟩

/-- Outcomes that differ in the state of the handlers have the same text. -/
theorem textOf_congr {o o' : Expansion.Outcome σ}
    (same : o.map (fun _ => ()) = o'.map fun _ => ()) :
    r.textOf p o = r.textOf p o' ∧ o.session.reports = o'.session.reports := by
  obtain ⟨session, u, applied, ending, additions⟩ := o
  obtain ⟨session', u', applied', ending', additions'⟩ := o'
  simp only [Expansion.Outcome.map, Session.map, Expansion.Outcome.mk.injEq,
    Session.mk.injEq] at same
  obtain ⟨⟨-, reports, -⟩, rfl, rfl, rfl, rfl⟩ := same
  exact ⟨rfl, reports⟩

/-- The answer does not depend on the state of stateless handlers. -/
theorem answer_congr (stateless : p.registry.Stateless) (handlers handlers' : σ) :
    r.answer p handlers loaded = r.answer p handlers' loaded := by
  cases loaded with
  | error e => rfl
  | ok u =>
      have agree := Expansion.expand_congr stateless r.settings.append p.budget handlers handlers'
        [] 0 u
      simp only [answer, generate, Option.map_map]
      cases first : Expansion.expand p.registry r.settings.append p.budget ⟨handlers, [], 0⟩ u with
      | none =>
          rw [first, Option.map_none, eq_comm, Option.map_eq_none_iff] at agree
          rw [agree]
      | some o =>
          rw [first, Option.map_some, eq_comm, Option.map_eq_some_iff] at agree
          obtain ⟨o', second, same⟩ := agree
          obtain ⟨text, reports⟩ := textOf_congr (r := r) (p := p) same
          simp [second, text, reports]

/-! ### Writing an answer -/

/-- Write the text of an answer and report the unit. -/
def Answer.finish (a : Answer) (path : Path) (d : Destination) (s : State σ) :
    Except Error FileReport × State σ :=
  match a.result with
  | .error e => (settle path e a.reports, s)
  | .ok g =>
    match emit s d g.text with
    | (.error e, s) => (.error e, s)
    | (.ok bytes, s) => (.ok (reportOf path d g bytes a.reports), s)

/-- A unit is processed by answering it and writing the answer. -/
theorem process_cases (r : Run) (p : Pipeline σ) (s : State σ) (path : Path)
    (loaded : Except Error SourceUnit) (d : Destination) :
    (r.answer p s.handlers loaded = none ∧ r.process p s path loaded d = none) ∨
      ∃ a handlers, r.answer p s.handlers loaded = some a ∧
        r.process p s path loaded d = some (a.finish path d ⟨s.out, handlers⟩) := by
  cases loaded with
  | error e => exact Or.inr ⟨_, s.handlers, rfl, rfl⟩
  | ok u =>
      cases generated : r.generate p s.handlers u with
      | none => exact Or.inl (by simp [answer, process, generated])
      | some done =>
          obtain ⟨result, reports, handlers⟩ := done
          refine Or.inr ⟨⟨result, reports⟩, handlers, by simp [answer, generated], ?_⟩
          rw [process, generated, Option.map_some]
          cases result <;> rfl

theorem settle_eq_ok_iff {e : Error} {reports : List Report} {report : FileReport} :
    settle path e reports = .ok report ↔
      e.isFileScoped = true ∧ report = .ofFailure path e reports := by
  unfold settle
  split
  · next ofUnit =>
      rw [Except.ok.injEq]
      exact ⟨fun same => ⟨ofUnit, same.symm⟩, fun same => same.2.symm⟩
  · next fatal => simp [fatal]

theorem emit_some {text : String} {bytes : Nat} :
    emit s d (some text) = (.ok bytes, s') ↔
      s.out.write d text = (.ok bytes, s'.out) ∧ s'.handlers = s.handlers := by
  obtain ⟨out, handlers⟩ := s
  obtain ⟨out', handlers'⟩ := s'
  cases written : out.write d text with
  | mk result files => simp [emit, written, eq_comm, and_assoc]

/-- A text is emitted with success by writing it. -/
theorem emit_eq_ok_iff {text : Option String} {bytes : Nat} :
    emit s d text = (.ok bytes, s') ↔
      bytes = (text.getD "").utf8ByteSize ∧ s'.handlers = s.handlers ∧
        s.out.Writes (row d (text.elim [] Sink.State.nonempty)) s'.out := by
  cases text with
  | none =>
      obtain ⟨out, handlers⟩ := s
      obtain ⟨out', handlers'⟩ := s'
      constructor
      · intro emitted
        cases emitted
        exact ⟨rfl, rfl, rfl⟩
      · rintro ⟨rfl, rfl, rfl⟩
        rfl
  | some text =>
      rw [emit_some, Option.elim_some, Sink.State.writes_nonempty_iff]
      constructor
      · rintro ⟨written, same⟩
        obtain rfl := Sink.State.bytes_of_write written
        exact ⟨rfl, same, written⟩
      · rintro ⟨rfl, same, written⟩
        exact ⟨written, same⟩

/-- An answer is written with success if it is settled and its text can be written. -/
theorem finish_eq_ok_iff {a : Answer} {report : FileReport} :
    a.finish path d s = (.ok report, s') ↔
      a.settled = true ∧ report = a.report path d ∧ s'.handlers = s.handlers ∧
        s.out.Writes (row d a.texts) s'.out := by
  obtain ⟨result, reports⟩ := a
  cases result with
  | error e =>
      have finished : (Answer.mk (.error e) reports).finish path d s = (settle path e reports, s) :=
        rfl
      rw [finished, Prod.mk.injEq, settle_eq_ok_iff, and_assoc]
      refine and_congr_right fun _ => and_congr_right fun _ => ?_
      obtain ⟨out, handlers⟩ := s
      obtain ⟨out', handlers'⟩ := s'
      constructor
      · intro same
        cases same
        exact ⟨rfl, rfl⟩
      · rintro ⟨rfl, rfl⟩
        rfl
  | ok g =>
      have finished : (Answer.mk (.ok g) reports).finish path d s = (.ok report, s') ↔
          ∃ bytes, emit s d g.text = (.ok bytes, s') ∧
            report = reportOf path d g bytes reports := by
        unfold Answer.finish
        simp only
        split
        · next failed => simp [failed]
        · next bytes after wrote =>
            simp only [wrote, Prod.mk.injEq, Except.ok.injEq]
            constructor
            · rintro ⟨rfl, rfl⟩
              exact ⟨bytes, ⟨rfl, rfl⟩, rfl⟩
            · rintro ⟨bytes', ⟨rfl, rfl⟩, rfl⟩
              exact ⟨rfl, rfl⟩
      rw [finished]
      constructor
      · rintro ⟨bytes, emitted, rfl⟩
        obtain ⟨rfl, same, writes⟩ := emit_eq_ok_iff.mp emitted
        exact ⟨rfl, rfl, same, writes⟩
      · rintro ⟨-, rfl, same, writes⟩
        exact ⟨_, emit_eq_ok_iff.mpr ⟨rfl, same, writes⟩, rfl⟩

/-! ### Courses -/

/-- The units that a run goes through, with their answers: up to the first answer that ends the
run. -/
inductive Course (answer : UnitEntry → Option Answer) (ends : Answer → Bool) :
    List UnitEntry → List (UnitEntry × Answer) → Prop
  | done : Course answer ends [] []
  | last {e : UnitEntry} {rest : List UnitEntry} {a : Answer} (known : answer e = some a)
      (settled : a.settled = true) (halts : ends a = true) :
      Course answer ends (e :: rest) [(e, a)]
  | next {e : UnitEntry} {rest : List UnitEntry} {a : Answer} {steps : List (UnitEntry × Answer)}
      (known : answer e = some a) (settled : a.settled = true) (goes : ends a = false)
      (more : Course answer ends rest steps) : Course answer ends (e :: rest) ((e, a) :: steps)

/-- Whether a run ends with an answer. -/
def ends (r : Run) (a : Answer) : Bool := a.stops || (r.settings.failFast && a.fails)

/-- The summary of a course. -/
def summaryOf (r : Run) (outputRoot : Option Path) (steps : List (UnitEntry × Answer)) : Summary :=
  ⟨steps.map fun step => step.2.report step.1.path (r.entryDestination outputRoot step.1),
    steps.any fun step => step.2.stops⟩

/-- The writes of a course. -/
def writesOf (r : Run) (outputRoot : Option Path) (steps : List (UnitEntry × Answer)) :
    List (Destination × String) :=
  steps.flatMap fun step => row (r.entryDestination outputRoot step.1) step.2.texts

variable {outputRoot : Option Path} {g : Progress σ} {e : UnitEntry} {a : Answer}

/-- The progress of a run after a unit that was processed with success. -/
def Progress.after (g : Progress σ) (s' : State σ) (report : FileReport) (stops : Bool) :
    Progress σ :=
  { g with state := s', summary := ⟨g.summary.files ++ [report], g.summary.stopped || stops⟩ }

/-- What a visit of a unit comes to that is processed with success. -/
theorem visitEntry_of_answer
    (processed : r.process p g.state e.path loaded (r.entryDestination outputRoot e) =
      some (.ok (a.report e.path (r.entryDestination outputRoot e)), s')) :
    r.visitEntry p outputRoot g e loaded =
      (g.after s' (a.report e.path (r.entryDestination outputRoot e)) a.stops, r.ends a) := by
  obtain ⟨stopped, failed⟩ := a.status_report e.path (r.entryDestination outputRoot e)
  rw [visitEntry, processed]
  simp only
  split
  · next status =>
      have stops := stopped.mp status
      simp [Progress.after, Summary.push, ends, stops]
  · next status =>
      have fails := failed.mp status
      have goes : a.stops = false := by
        rw [← Bool.not_eq_true, ← stopped, status]
        simp
      simp [Progress.after, Summary.push, ends, fails, goes]
  · next notStopped notFailed =>
      have goes : a.stops = false :=
        Bool.eq_false_iff.mpr fun stops => notStopped (stopped.mpr stops)
      have works : a.fails = false :=
        Bool.eq_false_iff.mpr fun fails => notFailed (failed.mpr fails)
      simp [Progress.after, Summary.push, ends, works, goes]

/-- A visit goes on with an answer that is settled and written, or it ends the run without a
summary. -/
theorem visitEntry_cases (r : Run) (p : Pipeline σ) (outputRoot : Option Path) (g : Progress σ)
    (e : UnitEntry) (loaded : Except Error SourceUnit) :
    (∃ a s', r.answer p g.state.handlers loaded = some a ∧ a.settled = true ∧
        g.state.out.Writes (row (r.entryDestination outputRoot e) a.texts) s'.out ∧
        r.visitEntry p outputRoot g e loaded =
          (g.after s' (a.report e.path (r.entryDestination outputRoot e)) a.stops, r.ends a)) ∨
      ((∀ a out', r.answer p g.state.handlers loaded = some a → a.settled = true →
          ¬ g.state.out.Writes (row (r.entryDestination outputRoot e) a.texts) out') ∧
        ∃ g', r.visitEntry p outputRoot g e loaded = (g', true) ∧
          (g'.spent = true ∨ g'.fatal ≠ none)) := by
  rcases process_cases r p g.state e.path loaded (r.entryDestination outputRoot e) with
    ⟨none, spent⟩ | ⟨a, handlers, known, processed⟩
  · refine Or.inr ⟨by simp [none], { g with spent := true }, ?_, Or.inl rfl⟩
    rw [visitEntry, spent]
  · cases finished : a.finish e.path (r.entryDestination outputRoot e) ⟨g.state.out, handlers⟩ with
    | mk result s' =>
        rw [finished] at processed
        cases result with
        | ok report =>
            obtain ⟨settled, rfl, -, writes⟩ := finish_eq_ok_iff.mp finished
            exact Or.inl ⟨a, s', known, settled, writes, visitEntry_of_answer processed⟩
        | error err =>
            refine Or.inr ⟨?_, { g with state := s', fatal := some err }, ?_, Or.inr (by simp)⟩
            · intro a' out' known' settled writes
              obtain rfl : a' = a := Option.some.inj (known'.symm.trans known)
              have succeeds : a'.finish e.path (r.entryDestination outputRoot e)
                  ⟨g.state.out, handlers⟩ = (.ok _, ⟨out', handlers⟩) :=
                finish_eq_ok_iff.mpr ⟨settled, rfl, rfl, writes⟩
              rw [finished] at succeeds
              cases succeeds
            · rw [visitEntry, processed]

/-- A course from a unit with an answer goes on to the others, if the answer does not end it. -/
theorem course_cons_iff {known : UnitEntry → Option Answer} {halts : Answer → Bool}
    {rest : List UnitEntry} {steps : List (UnitEntry × Answer)} (found : known e = some a)
    (settled : a.settled = true) :
    Course known halts (e :: rest) steps ↔ ∃ more, steps = (e, a) :: more ∧
      (halts a = true ∧ more = [] ∨ halts a = false ∧ Course known halts rest more) := by
  constructor
  · intro course
    cases course with
    | last found' _ ends =>
        obtain rfl := Option.some.inj (found'.symm.trans found)
        exact ⟨[], rfl, Or.inl ⟨ends, rfl⟩⟩
    | next found' _ goes more =>
        obtain rfl := Option.some.inj (found'.symm.trans found)
        exact ⟨_, rfl, Or.inr ⟨goes, more⟩⟩
  · rintro ⟨more, rfl, ⟨ends, rfl⟩ | ⟨goes, course⟩⟩
    · exact .last found settled ends
    · exact .next found settled goes course

/-- A course starts with the first unit and a settled answer for it. -/
theorem Course.head {known : UnitEntry → Option Answer} {halts : Answer → Bool}
    {rest : List UnitEntry} {steps : List (UnitEntry × Answer)}
    (course : Course known halts (e :: rest) steps) :
    ∃ a more, steps = (e, a) :: more ∧ known e = some a ∧ a.settled = true := by
  cases course with
  | last found settled _ => exact ⟨_, [], rfl, found, settled⟩
  | next found settled _ _ => exact ⟨_, _, rfl, found, settled⟩

/-- A course goes through the first units. -/
theorem Course.initial {known : UnitEntry → Option Answer} {halts : Answer → Bool}
    {entries : List UnitEntry} {steps : List (UnitEntry × Answer)}
    (course : Course known halts entries steps) : steps.map (·.1) <+: entries := by
  induction course with
  | done => exact List.prefix_refl _
  | last => simp
  | next _ _ _ _ ih => simpa using ih

/-- Every step of a course has the answer for its unit. -/
theorem Course.known {known : UnitEntry → Option Answer} {ends : Answer → Bool}
    {entries : List UnitEntry} {steps : List (UnitEntry × Answer)}
    (course : Course known ends entries steps) : ∀ step ∈ steps, known step.1 = some step.2 := by
  induction course with
  | done => simp
  | last found => simpa using found
  | next found _ _ _ ih => exact List.forall_mem_cons.mpr ⟨found, ih⟩

theorem mem_writesOf {steps : List (UnitEntry × Answer)} {w : Destination × String} :
    w ∈ r.writesOf outputRoot steps ↔
      ∃ step ∈ steps, w.1 = r.entryDestination outputRoot step.1 ∧ w.2 ∈ step.2.texts := by
  simp only [writesOf, row, List.mem_flatMap, List.mem_map]
  constructor
  · rintro ⟨step, member, text, inside, rfl⟩
    exact ⟨step, member, rfl, inside⟩
  · rintro ⟨step, member, path, inside⟩
    exact ⟨step, member, w.2, inside, by rw [← path]⟩

theorem given_of_mem_writesOf {steps : List (UnitEntry × Answer)} {w : Destination × String}
    (member : w ∈ r.writesOf outputRoot steps) : w.2 ≠ "" := by
  obtain ⟨step, -, -, inside⟩ := mem_writesOf.mp member
  exact Answer.given_of_mem_texts inside

/-- Units with different destinations are written apart. -/
theorem apart_writesOf {known : UnitEntry → Option Answer} {halts : Answer → Bool}
    {entries : List UnitEntry} {steps : List (UnitEntry × Answer)} {cwd : List String}
    (course : Course known halts entries steps)
    (apart : entries.Pairwise fun e e' =>
      Apart cwd (r.entryDestination outputRoot e) (r.entryDestination outputRoot e')) :
    (r.writesOf outputRoot steps).Pairwise fun w w' => Apart cwd w.1 w'.1 := by
  have units := apart.sublist course.initial.sublist
  rw [List.pairwise_map] at units
  rw [writesOf, List.pairwise_flatMap]
  refine ⟨?_, units.imp ?_⟩
  · intro step _
    rcases step.2.texts_cases with none | ⟨text, -, one⟩
    · simp [none]
    · simp [one]
  · rintro step step' apart w here w' there
    obtain ⟨text, -, rfl⟩ := List.mem_map.mp here
    obtain ⟨text', -, rfl⟩ := List.mem_map.mp there
    exact apart

/-- A course writes where its units may be written to. -/
theorem Course.mayTouch {known : UnitEntry → Option Answer} {halts : Answer → Bool}
    {entries : List UnitEntry} {steps : List (UnitEntry × Answer)} {cwd place : List String}
    (course : Course known halts entries steps)
    (touched : ∃ w ∈ r.writesOf outputRoot steps, w.1.MayTouch cwd place) :
    r.MayTouch outputRoot entries cwd place := by
  obtain ⟨w, member, touched⟩ := touched
  obtain ⟨step, inside, path, -⟩ := mem_writesOf.mp member
  exact ⟨step.1, course.initial.subset (List.mem_map_of_mem inside), path ▸ touched⟩

/-- A run that has come to its end, with a summary. -/
structure Progress.Ends (g : Progress σ) (summary : Summary) (out : Sink.State) : Prop where
  unspent : g.spent = false
  success : g.fatal = none
  summary : g.summary = summary
  out : g.state.out = out

/-- Steps that lead from some progress to a summary, with the writes that they make. -/
structure Progress.LeadsTo (r : Run) (outputRoot : Option Path) (g : Progress σ)
    (steps : List (UnitEntry × Answer)) (summary : Summary) (out' : Sink.State) : Prop where
  summary : summary = ⟨g.summary.files ++ (r.summaryOf outputRoot steps).files,
    g.summary.stopped || (r.summaryOf outputRoot steps).stopped⟩
  writes : g.state.out.Writes (r.writesOf outputRoot steps) out'

theorem leadsTo_nil {summary : Summary} :
    g.LeadsTo r outputRoot [] summary out' ↔ g.summary = summary ∧ g.state.out = out' := by
  constructor
  · rintro ⟨rfl, rfl⟩
    simp [summaryOf]
  · rintro ⟨rfl, rfl⟩
    exact ⟨by simp [summaryOf], rfl⟩

theorem leadsTo_start {steps : List (UnitEntry × Answer)} {summary : Summary} :
    Progress.LeadsTo r outputRoot ⟨s, .empty, none, false⟩ steps summary out' ↔
      summary = r.summaryOf outputRoot steps ∧ s.out.Writes (r.writesOf outputRoot steps) out' := by
  constructor
  · rintro ⟨rfl, writes⟩
    exact ⟨by simp [Summary.empty], writes⟩
  · rintro ⟨rfl, writes⟩
    exact ⟨by simp [Summary.empty], writes⟩

/-- Steps lead on from the first of them. -/
theorem leadsTo_cons {steps : List (UnitEntry × Answer)} {summary : Summary}
    (written : g.state.out.Writes (row (r.entryDestination outputRoot e) a.texts) s'.out) :
    g.LeadsTo r outputRoot ((e, a) :: steps) summary out' ↔
      (g.after s' (a.report e.path (r.entryDestination outputRoot e)) a.stops).LeadsTo r outputRoot
        steps summary out' := by
  have same : g.state.out.Writes (r.writesOf outputRoot ((e, a) :: steps)) out' ↔
      s'.out.Writes (r.writesOf outputRoot steps) out' := by
    refine Sink.State.writes_append_iff.trans ⟨?_, fun others => ⟨s'.out, written, others⟩⟩
    rintro ⟨mid, first, others⟩
    rwa [Sink.State.writes_unique written first]
  constructor
  · rintro ⟨rfl, writes⟩
    exact ⟨by simp [summaryOf, Progress.after, Bool.or_assoc], same.mp writes⟩
  · rintro ⟨rfl, writes⟩
    exact ⟨by simp [summaryOf, Progress.after, Bool.or_assoc], same.mpr writes⟩

/-- A walk over units that stay as they are comes to its end by a course. -/
theorem walk_ends_iff (outputRoot : Option Path) (summary : Summary) (out' : Sink.State)
    {survey : Survey} {fs : FileSystem} {known : UnitEntry → Option Answer}
    {entries : List UnitEntry}
    (answers : ∀ e ∈ entries, ∀ handlers,
      r.answer p handlers (fs.loadUnit survey.frontend e.path) = known e)
    (unspent : g.spent = false) (success : g.fatal = none) :
    (survey.walk (fun _ => fs) (r.visitEntry p outputRoot) g entries).Ends summary out' ↔
      ∃ steps, Course known r.ends entries steps ∧
        g.LeadsTo r outputRoot steps summary out' := by
  induction entries generalizing g with
  | nil =>
      constructor
      · rintro ⟨-, -, same, out⟩
        exact ⟨[], .done, leadsTo_nil.mpr ⟨same, out⟩⟩
      · rintro ⟨steps, course, leads⟩
        cases course
        obtain ⟨same, out⟩ := leadsTo_nil.mp leads
        exact ⟨unspent, success, same, out⟩
  | cons e rest ih =>
      have here := answers e List.mem_cons_self g.state.handlers
      have others := fun e inside => answers e (List.mem_cons_of_mem _ inside)
      rw [Survey.walk]
      rcases visitEntry_cases r p outputRoot g e (fs.loadUnit survey.frontend e.path) with
        ⟨a, s', answered, settled, written, visited⟩ | ⟨refused, g', visited, cause⟩
      · rw [here] at answered
        rw [visited]
        cases ends : r.ends a with
        | true =>
            have last : ∀ steps, Course known r.ends (e :: rest) steps ↔ steps = [(e, a)] := by
              simp [course_cons_iff answered settled, ends]
            simp only [if_true, last, exists_eq_left, leadsTo_cons written, leadsTo_nil]
            exact ⟨fun done => ⟨done.summary, done.out⟩,
              fun done => ⟨unspent, success, done.1, done.2⟩⟩
        | false =>
            have next : ∀ steps, Course known r.ends (e :: rest) steps ↔
                ∃ more, steps = (e, a) :: more ∧ Course known r.ends rest more := by
              simp [course_cons_iff answered settled, ends]
            simp only [Bool.false_eq_true, if_false]
            rw [ih (g := g.after s' _ _) others unspent success]
            constructor
            · rintro ⟨more, course, leads⟩
              exact ⟨_, (next _).mpr ⟨more, rfl, course⟩, (leadsTo_cons written).mpr leads⟩
            · rintro ⟨steps, course, leads⟩
              obtain ⟨more, rfl, others⟩ := (next _).mp course
              exact ⟨more, others, (leadsTo_cons written).mp leads⟩
      · rw [visited]
        simp only [if_true]
        constructor
        · rintro ⟨unspent', success', -, -⟩
          rcases cause with spent | fatal
          · rw [spent] at unspent'
            cases unspent'
          · exact absurd success' fatal
        · rintro ⟨steps, course, -, writes⟩
          obtain ⟨a, more, rfl, found, settled⟩ := course.head
          obtain ⟨mid, first, -⟩ := Sink.State.writes_append_iff.mp writes
          exact absurd first (refused a mid (here.trans found) settled)

/-! ### Runs -/

/-- The answer for the file of a unit. -/
def answerAt (r : Run) (p : Pipeline σ) (handlers : σ) (fs : FileSystem) (e : UnitEntry) :
    Option Answer :=
  r.answer p handlers (fs.loadUnit r.frontend e.path)

/-- No unit stands where one of them is written to. -/
def UnitsApart (r : Run) (fs : FileSystem) (plan : Plan) : Prop :=
  ∀ e ∈ plan.entries, ∀ place, MayLeadTo fs.cwd e.path place →
    ¬ r.MayTouch plan.outputRoot plan.entries fs.cwd place

variable {registry : Registry (Handler σ)} {budget : Nat} {fs : FileSystem} {plan : Plan}
variable {summary : Summary}

/-- A run over a directory that succeeds has a plan. -/
theorem plan_of_runDirectory (ran : r.runDirectory registry budget s = some (.ok summary, s')) :
    ∃ plan, r.plan s.out.files = .ok plan := by
  cases planned : r.plan s.out.files with
  | error e =>
      rw [runDirectory, planned] at ran
      cases ran
  | ok plan => exact ⟨plan, rfl⟩

/-- **Courses of runs.** A run over units that are not written to succeeds by a course of them. It
may start in files that have been changed where the units are written to. -/
theorem runDirectory_eq_some_iff (stateless : registry.Stateless) (wellFormed : fs.WellFormed)
    (planned : r.plan fs = .ok plan) (apart : r.UnitsApart fs plan)
    (kept : Keeps (r.MayTouch plan.outputRoot plan.entries fs.cwd) fs s.out.files)
    (planned' : r.plan s.out.files = .ok plan) (handlers : σ) :
    (∃ handlers', r.runDirectory registry budget s = some (.ok summary, ⟨out', handlers'⟩)) ↔
      ∃ steps, Course (r.answerAt ⟨registry, budget, plan.relocations⟩ handlers fs) r.ends
          plan.entries steps ∧
        summary = r.summaryOf plan.outputRoot steps ∧
        s.out.Writes (r.writesOf plan.outputRoot steps) out' := by
  obtain ⟨excluded, -, survey, discovered⟩ := plan_eq_ok planned
  have frontend : plan.survey.frontend = r.frontend := by rw [survey, frontend_survey]
  have constant : plan.survey.walk (fun g => g.state.out.files)
      (r.visitEntry ⟨registry, budget, plan.relocations⟩ plan.outputRoot)
      ⟨s, .empty, none, false⟩ plan.entries =
        plan.survey.walk (fun _ => fs)
          (r.visitEntry ⟨registry, budget, plan.relocations⟩ plan.outputRoot)
          ⟨s, .empty, none, false⟩ plan.entries := by
    have start : r.Kept plan.outputRoot plan.entries fs
        (⟨s, .empty, none, false⟩ : Progress σ) := kept
    refine plan.survey.walk_congr start (kept_visitEntry _) ?_
    intro g e member kept
    exact loadUnit_congr (Survey.entry_of_keeps wellFormed.root discovered member kept
      (apart e member)) _
  have answers : ∀ e ∈ plan.entries, ∀ handlers',
      r.answer ⟨registry, budget, plan.relocations⟩ handlers'
          (fs.loadUnit plan.survey.frontend e.path) =
        r.answerAt ⟨registry, budget, plan.relocations⟩ handlers fs e := by
    intro e _ handlers'
    rw [frontend]
    exact answer_congr stateless handlers' handlers
  have ends := walk_ends_iff plan.outputRoot summary out' (g := ⟨s, .empty, none, false⟩) answers
    rfl rfl
  rw [runDirectory, planned']
  simp only [constant]
  simp only [leadsTo_start] at ends
  refine Iff.trans ?_ ends
  generalize plan.survey.walk (fun _ => fs) _ _ plan.entries = done
  obtain ⟨⟨out, handlers'⟩, reached, fatal, spent⟩ := done
  constructor
  · rintro ⟨handlers'', ran⟩
    split at ran
    · cases ran
    · next unspent =>
        split at ran
        · cases ran
        · next success =>
            cases ran
            exact ⟨Bool.eq_false_iff.mpr unspent, success, rfl, rfl⟩
  · rintro ⟨rfl, rfl, rfl, rfl⟩
    exact ⟨handlers', rfl⟩

end Run

end Graft
