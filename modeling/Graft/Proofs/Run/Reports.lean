import Graft.Proofs.Run.Append
import Graft.Proofs.Run.Visits

/-!
# What a run reports

The summary of a run over a directory accounts for its visits, one report each. A report of a unit
that was given up has an error and nothing else, and the unit has changed no file and not the
stream. The other reports have a destination and a hash exactly if something was written. A run
leaves units out only behind a report that says why, and its exit code is that of the gravest
error. `Accounts` is all this, and `run_accounts` says that it holds of every run, whatever the
handlers do and wherever the units go.

A run that ends with an error has no summary. `Breaks` says what is left to say: that the error
concerns no single unit, and that the units behind the one that raised it might as well not be
there.
-/

namespace Graft

/-- The error of reading a unit. -/
def Error.isOfLoading : Error → Bool
  | load .. | io .. => true
  | _ => false

/-- The error of a handler, or of moving the references in what the handlers have made. -/
def Error.isOfExpansion : Error → Bool
  | handlerFailed .. | relocation .. => true
  | _ => false

theorem Error.code_of_isOfLoading {e : Error} (ofLoading : e.isOfLoading = true) : e.code = 3 := by
  cases e <;> first | rfl | cases ofLoading

theorem Error.code_of_isOfExpansion {e : Error} (ofExpansion : e.isOfExpansion = true) :
    e.code = 4 := by
  cases e <;> first | rfl | cases ofExpansion

/-- An error that concerns one unit arises in reading it or in expanding it. -/
theorem Error.isFileScoped_iff {e : Error} :
    e.isFileScoped = true ↔ e.isOfLoading = true ∨ e.isOfExpansion = true := by
  cases e <;> simp [isFileScoped, isOfLoading, isOfExpansion]

/-- The fields of a report fit together. -/
structure FileReport.Consistent (f : FileReport) : Prop where
  error_iff : f.error.isSome = true ↔ f.status = .failed
  destination_iff : f.destination.isSome = true ↔ 0 < f.bytes
  hash_iff : f.hash.isSome = true ↔ 0 < f.bytes
  written : f.status = .written → 0 < f.bytes
  unwritten : f.status = .unchanged ∨ f.status = .failed → f.bytes = 0

/-- The exit code is the highest code of a failure, or zero. -/
theorem Summary.exitCode_spec (s : Summary) :
    s.exitCode ∈ 0 :: s.failures.filterMap (fun f => f.error.map (·.code)) ∧
      ∀ code ∈ 0 :: s.failures.filterMap (fun f => f.error.map (·.code)), code ≤ s.exitCode := by
  rw [← List.max?_eq_some_iff, List.max?_cons']
  rfl

namespace Run

variable {σ : Type} {r : Run} {p : Pipeline σ} {s s' : State σ} {outputRoot : Option Path}
variable {path : Path} {d : Destination} {f : FileReport} {e : Error} {v : Visit σ}
variable {vs : List (Visit σ)} {entries : List UnitEntry} {summary : Summary}

/-! ### One visit -/

/-- The error for which a unit is given up. -/
def Answer.error? (a : Answer) : Option Error :=
  match a.result with
  | .error e => some e
  | .ok _ => none

theorem consistent_reportOf {g : Generated} {bytes : Nat} (reports : List Report)
    (hashed : 0 < bytes → g.text.isSome = true) : (reportOf path d g bytes reports).Consistent := by
  obtain ⟨text, stopped, applied⟩ := g
  by_cases given : 0 < bytes
  · have text := hashed given
    cases stopped <;> constructor <;> simp_all [reportOf, Nat.ne_of_gt given]
  · obtain rfl : bytes = 0 := Nat.eq_zero_of_not_pos given
    cases stopped <;> constructor <;> simp [reportOf]

theorem Answer.consistent_report (a : Answer) (path : Path) (d : Destination) :
    (a.report path d).Consistent := by
  obtain ⟨result, reports⟩ := a
  cases result with
  | error e => constructor <;> simp [report, FileReport.ofFailure]
  | ok g =>
      refine consistent_reportOf reports ?_
      cases g.text <;> simp

theorem Answer.error_report (a : Answer) (path : Path) (d : Destination) :
    (a.report path d).error = a.error?.map ErrorInfo.ofError := by
  obtain ⟨result, reports⟩ := a
  cases result <;> rfl

/-- Writing a text fails with an error of its destination. -/
theorem error_of_emit {text : Option String} (failed : emit s d text = (.error e, s')) :
    ∃ fault, e = .sink d.display fault := by
  cases text with
  | none => cases failed
  | some text =>
      rw [emit, Sink.State.write] at failed
      split at failed
      next result out written =>
        cases failed
        split at written
        · cases written
        · split at written
          · next fault _ _ =>
              cases written
              exact ⟨fault, rfl⟩
          · cases written

/-- An error that ends a run while a unit is processed concerns no single unit. -/
theorem fatal_of_finish {a : Answer} (broken : a.finish path d s = (.error e, s')) :
    e.isFileScoped = false := by
  obtain ⟨result, reports⟩ := a
  cases result with
  | error err =>
      have settled : settle path err reports = .error e := (Prod.mk.inj broken).1
      unfold settle at settled
      split at settled
      · cases settled
      · next fatal =>
          cases settled
          exact Bool.eq_false_iff.mpr fatal
  | ok g =>
      unfold Answer.finish at broken
      simp only at broken
      split at broken
      · next failed =>
          cases broken
          obtain ⟨fault, rfl⟩ := error_of_emit failed
          rfl
      · cases broken

namespace Visit.Made

variable (made : v.Made r p outputRoot)

include made

theorem error_eq (reported : v.result = .ok f) :
    f.error = v.answer.error?.map ErrorInfo.ofError := by
  rw [(made.report reported).1, Answer.error_report]

theorem consistent (reported : v.result = .ok f) : f.Consistent :=
  (made.report reported).1 ▸ v.answer.consistent_report ..

theorem failed_iff (reported : v.result = .ok f) :
    f.status = .failed ↔ v.answer.error?.isSome = true := by
  rw [← (made.consistent reported).error_iff, made.error_eq reported, Option.isSome_map]

theorem isFileScoped (reported : v.result = .ok f) (given : v.answer.error? = some e) :
    e.isFileScoped = true := by
  obtain ⟨-, settled, -⟩ := made.report reported
  unfold Answer.error? at given
  unfold Answer.settled at settled
  split at given
  · next failed =>
      cases given
      rwa [failed] at settled
  · cases given

/-- A unit that was given up has changed no file and not the stream. -/
theorem untouched (reported : v.result = .ok f) (failed : f.status = .failed) :
    v.after.out = v.before.out := by
  obtain ⟨rfl, -, writes⟩ := made.report reported
  have fails := (v.answer.status_report _ _).2.mp failed
  have nothing : v.answer.texts = [] := by
    unfold Answer.fails at fails
    unfold Answer.texts
    split <;> simp_all
  rwa [nothing] at writes

theorem fatal (broken : v.result = .error e) : e.isFileScoped = false := by
  obtain ⟨handlers, finished⟩ := made.finished
  rw [broken] at finished
  exact fatal_of_finish finished

end Visit.Made

/-! ### All visits -/

theorem haltsWith_ok_iff : r.haltsWith (.ok f) = true ↔
    f.status = .stopped ∨ f.status = .failed ∧ r.settings.failFast = true := by
  simp [haltsWith, FileReport.isFailed, and_comm]

section Reported

variable {files : List FileReport} (made : ∀ v ∈ vs, v.Made r p outputRoot)
variable (results : vs.map (·.result) = files.map .ok)

include made results

/-- The codes of the failures in a summary are those of the errors of the visits. -/
theorem mem_codes_iff {stopped : Bool} {code : Nat} :
    code ∈ (Summary.mk files stopped).failures.filterMap (fun f => f.error.map (·.code)) ↔
      ∃ v ∈ vs, ∃ e, v.answer.error? = some e ∧ e.code = code := by
  simp only [List.mem_filterMap, Summary.failures, List.mem_filter, Option.map_eq_some_iff]
  constructor
  · rintro ⟨f, ⟨inside, -⟩, info, given, rfl⟩
    obtain ⟨v, member, reported⟩ := (mem_files_iff results).mp inside
    rw [(made v member).error_eq reported, Option.map_eq_some_iff] at given
    obtain ⟨e, given, rfl⟩ := given
    exact ⟨v, member, e, given, rfl⟩
  · rintro ⟨v, member, e, given, rfl⟩
    obtain ⟨f, inside, reported⟩ := reported_of_mem results member
    have info := (made v member).error_eq reported
    rw [given, Option.map_some] at info
    have failed := ((made v member).failed_iff reported).mpr (by rw [given, Option.isSome_some])
    exact ⟨f, ⟨inside, by simp [FileReport.isFailed, failed]⟩, _, info, rfl⟩

theorem isSuccess_iff {stopped : Bool} :
    (Summary.mk files stopped).isSuccess = true ↔ ∀ v ∈ vs, v.answer.error? = none := by
  rw [Summary.isSuccess, List.isEmpty_iff, Summary.failures, List.filter_eq_nil_iff]
  constructor
  · intro success v member
    obtain ⟨f, inside, reported⟩ := reported_of_mem results member
    have worked := success f inside
    rwa [FileReport.isFailed, decide_eq_true_iff, (made v member).failed_iff reported,
      Option.not_isSome_iff_eq_none] at worked
  · intro clean f inside
    obtain ⟨v, member, reported⟩ := (mem_files_iff results).mp inside
    rw [FileReport.isFailed, decide_eq_true_iff, (made v member).failed_iff reported,
      clean v member]
    simp

/-- The exit code is zero or the code of an error of a visit, and none of them is higher. -/
theorem exitCode_cases (stopped : Bool) :
    ((Summary.mk files stopped).exitCode = 0 ∨ ∃ v ∈ vs, ∃ e, v.answer.error? = some e ∧
      e.code = (Summary.mk files stopped).exitCode) ∧
    ∀ v ∈ vs, ∀ e, v.answer.error? = some e → e.code ≤ (Summary.mk files stopped).exitCode := by
  obtain ⟨here, highest⟩ := (Summary.mk files stopped).exitCode_spec
  rw [List.mem_cons, mem_codes_iff made results] at here
  refine ⟨here, ?_⟩
  intro v member e given
  exact highest _ (List.mem_cons_of_mem _
    ((mem_codes_iff made results).mpr ⟨v, member, e, given, rfl⟩))

/-- The errors of visits that come to reports have the codes of loading and of expansion. -/
theorem code_cases (member : v ∈ vs) (given : v.answer.error? = some e) :
    e.isOfLoading = true ∧ e.code = 3 ∨ e.isOfExpansion = true ∧ e.code = 4 := by
  obtain ⟨f, -, reported⟩ := reported_of_mem results member
  rcases Error.isFileScoped_iff.mp ((made v member).isFileScoped reported given) with
    ofLoading | ofExpansion
  · exact Or.inl ⟨ofLoading, Error.code_of_isOfLoading ofLoading⟩
  · exact Or.inr ⟨ofExpansion, Error.code_of_isOfExpansion ofExpansion⟩

theorem exitCode_eq_zero_iff {stopped : Bool} :
    (Summary.mk files stopped).exitCode = 0 ↔ (Summary.mk files stopped).isSuccess = true := by
  obtain ⟨here, highest⟩ := exitCode_cases made results stopped
  rw [isSuccess_iff made results]
  constructor
  · intro zero v member
    rw [Option.eq_none_iff_forall_ne_some]
    intro e given
    have low := highest v member e given
    rcases code_cases made results member given with ⟨-, code⟩ | ⟨-, code⟩ <;> omega
  · intro clean
    rcases here with zero | ⟨v, member, e, given, -⟩
    · exact zero
    · rw [clean v member] at given
      cases given

theorem exitCode_of_expansion {stopped : Bool} (member : v ∈ vs)
    (given : v.answer.error? = some e) (ofExpansion : e.isOfExpansion = true) :
    (Summary.mk files stopped).exitCode = 4 := by
  obtain ⟨here, highest⟩ := exitCode_cases made results stopped
  have low := highest v member e given
  rw [Error.code_of_isOfExpansion ofExpansion] at low
  rcases here with zero | ⟨w, inside, e', given', code⟩
  · omega
  · rcases code_cases made results inside given' with ⟨-, code'⟩ | ⟨-, code'⟩ <;> omega

theorem exitCode_of_loading {stopped : Bool}
    (failed : (Summary.mk files stopped).isSuccess = false)
    (ofLoading : ∀ v ∈ vs, ∀ e, v.answer.error? = some e → e.isOfLoading = true) :
    (Summary.mk files stopped).exitCode = 3 := by
  obtain ⟨here, -⟩ := exitCode_cases made results stopped
  rcases here with zero | ⟨w, inside, e, given, code⟩
  · rw [(exitCode_eq_zero_iff made results).mp zero] at failed
    cases failed
  · rw [← code, Error.code_of_isOfLoading (ofLoading w inside e given)]

end Reported

/-! ### Accounts -/

/-- A summary accounts for the visits that a run has made over its units. -/
structure Accounts (r : Run) (entries : List UnitEntry) (vs : List (Visit σ)) (summary : Summary) :
    Prop where
  /-- There is one report for each visit, in order. -/
  reports : vs.map (·.result) = summary.files.map .ok
  path : ∀ v ∈ vs, ∀ f, v.result = .ok f → f.path = v.entry.path
  /-- The visits are of the first units, in order. -/
  initial : vs.map (·.entry) <+: entries
  /-- The last report says why units were left out. -/
  proper : vs.map (·.entry) ≠ entries → ∃ f, summary.files.getLast? = some f ∧
    (f.status = .stopped ∨ f.status = .failed ∧ r.settings.failFast = true)
  stopped_iff : summary.stopped = true ↔ ∃ f ∈ summary.files, f.status = .stopped
  stops_last : ∀ before f after, summary.files = before ++ f :: after → f.status = .stopped →
    after = []
  consistent : ∀ f ∈ summary.files, f.Consistent
  /-- Errors are reported, and only for units that were given up. -/
  error : ∀ v ∈ vs, ∀ f, v.result = .ok f → f.error = v.answer.error?.map ErrorInfo.ofError
  /-- A unit that was given up has changed no file and not the stream. -/
  untouched : ∀ v ∈ vs, ∀ f, v.result = .ok f → f.status = .failed → v.after.out = v.before.out
  exits : summary.exitCode = 0 ↔ summary.isSuccess = true
  expansion : (∃ v ∈ vs, ∃ e, v.answer.error? = some e ∧ e.isOfExpansion = true) →
    summary.exitCode = 4
  loading : summary.isSuccess = false →
    (∀ v ∈ vs, ∀ e, v.answer.error? = some e → e.isOfLoading = true) → summary.exitCode = 3

/-- Visits that come to reports end with one that ends the run, or they are of all units. Only
the last report can be of a unit at which a handler has stopped. -/
theorem Visits.reports_cases (visits : Visits r p outputRoot s entries vs s')
    {files : List FileReport} (results : vs.map (·.result) = files.map .ok) :
    ∃ before last, files = before ++ last ∧ (∀ f ∈ before, f.status ≠ .stopped) ∧
      (last = [] ∧ vs.map (·.entry) = entries ∨
        ∃ f, last = [f] ∧
          (f.status = .stopped ∨ f.status = .failed ∧ r.settings.failFast = true)) := by
  have unstopped : ∀ {f}, r.haltsWith (.ok f) = false → f.status ≠ .stopped := by
    intro f goes stopped
    rw [haltsWith_ok_iff.mpr (Or.inl stopped)] at goes
    cases goes
  rcases visits.halts_cases with ⟨all, goes⟩ | ⟨front, v, whole, halts, goes⟩
  · refine ⟨files, [], by simp, ?_, Or.inl ⟨rfl, all⟩⟩
    intro f inside
    obtain ⟨v, member, reported⟩ := (mem_files_iff results).mp inside
    exact unstopped (reported ▸ goes v member)
  · obtain ⟨before, f, rfl, first, reported⟩ := files_concat results whole
    refine ⟨before, [f], rfl, ?_, Or.inr ⟨f, rfl, haltsWith_ok_iff.mp (reported ▸ halts)⟩⟩
    intro f' inside
    obtain ⟨w, member, reported'⟩ := (mem_files_iff first).mp inside
    exact unstopped (reported' ▸ goes w member)

theorem accounts_of_visits (visits : Visits r p outputRoot s entries vs s')
    {files : List FileReport} (results : vs.map (·.result) = files.map .ok) :
    Accounts r entries vs ⟨files, files.any fun f => f.status = .stopped⟩ := by
  have made := visits.made
  obtain ⟨before, last, whole, unstopped, ending⟩ := visits.reports_cases results
  constructor
  case reports => exact results
  case path =>
    intro v member f reported
    rw [((made v member).report reported).1, Answer.path_report]
  case initial => exact visits.initial
  case proper =>
    intro left
    rcases ending with ⟨-, all⟩ | ⟨f, rfl, reason⟩
    · exact absurd all left
    · exact ⟨f, by rw [whole, List.getLast?_concat], reason⟩
  case stopped_iff => simp
  case stops_last =>
    intro front f rest cut stopped
    -- a report with others behind it is not the last, so no handler has stopped there
    rcases List.eq_nil_or_concat rest with rfl | ⟨rest, g, rfl⟩
    · rfl
    · have cut' : files = front ++ f :: rest ++ [g] := by simpa using cut
      have inside : f ∈ before := by
        rcases ending with ⟨rfl, -⟩ | ⟨f', rfl, -⟩
        · rw [← List.append_nil before, ← whole, cut']
          simp
        · obtain ⟨same, -⟩ := List.append_inj' (cut'.symm.trans whole) rfl
          rw [← same]
          simp
      exact absurd stopped (unstopped f inside)
  case consistent =>
    intro f inside
    obtain ⟨v, member, reported⟩ := (mem_files_iff results).mp inside
    exact (made v member).consistent reported
  case error => exact fun v member f reported => (made v member).error_eq reported
  case untouched => exact fun v member f reported => (made v member).untouched reported
  case exits => exact exitCode_eq_zero_iff made results
  case expansion =>
    rintro ⟨v, member, e, given, ofExpansion⟩
    exact exitCode_of_expansion made results member given ofExpansion
  case loading => exact fun failed ofLoading => exitCode_of_loading made results failed ofLoading

/-- A run over the units of a plan has broken off with an error. -/
structure Breaks (r : Run) (p : Pipeline σ) (plan : Plan) (s : State σ) (vs : List (Visit σ))
    (err : Error) (s' : State σ) : Prop where
  fatal : err.isFileScoped = false
  /-- The last visit has raised the error, and the run ends in the state that it has left. -/
  last : ∃ front v, vs = front ++ [v] ∧ (∀ w ∈ front, ∃ f, w.result = .ok f) ∧
    v.result = .error err ∧ v.after = s'
  /-- Other units could follow those that were visited and the run would be the same. -/
  later : ∀ units, plan.survey.walk (fun g => g.state.out.files) (r.visitEntry p plan.outputRoot)
      ⟨s, .empty, none, false⟩ (vs.map (·.entry) ++ units) =
    plan.survey.walk (fun g => g.state.out.files) (r.visitEntry p plan.outputRoot)
      ⟨s, .empty, none, false⟩ plan.entries

theorem breaks_of_visits {plan : Plan} (frontend : plan.survey.frontend = r.frontend)
    (visits : Visits r p plan.outputRoot s plan.entries vs s') {front : List (Visit σ)}
    {files : List FileReport} (whole : vs = front ++ [v])
    (results : front.map (·.result) = files.map .ok) (broken : v.result = .error e) :
    Breaks r p plan s vs e s' := by
  have made := visits.made v (whole ▸ List.mem_append_right _ List.mem_cons_self)
  refine ⟨made.fatal broken, ⟨front, v, whole, ?_, broken, ?_⟩, ?_⟩
  · intro w member
    obtain ⟨f, -, reported⟩ := reported_of_mem results member
    exact ⟨f, reported⟩
  · rw [← visits.state_through (g := ⟨s, .empty, none, false⟩) rfl, whole, Progress.through,
      List.foldl_append]
    exact (state_visited ..).symm
  · intro units
    have halts : ∃ v, vs.getLast? = some v ∧ r.haltsWith v.result = true :=
      ⟨v, by rw [whole, List.getLast?_concat], by rw [broken]; rfl⟩
    rw [visits.walk_eq frontend rfl, (visits.extend halts units).walk_eq frontend rfl]

variable {registry : Registry (Handler σ)} {budget : Nat} {outcome : Except Error Summary}

/-- **Accounts of runs.** A run over a directory that has a plan makes visits over the units of the
plan, each from the state that the one before has left. If it succeeds, its summary accounts for
the visits. If it ends with an error, the error concerns no single unit, the last visit has raised
it, and nothing depends on the units behind. -/
theorem run_accounts (isDir : s.out.files.isDir r.source = true)
    (ran : r.run registry budget s = some (outcome, s')) :
    (∃ err, r.plan s.out.files = .error err ∧ outcome = .error err ∧ s' = s) ∨
      ∃ plan vs, r.plan s.out.files = .ok plan ∧
        Visits r ⟨registry, budget, plan.relocations⟩ plan.outputRoot s plan.entries vs s' ∧
        (∀ summary, outcome = .ok summary → Accounts r plan.entries vs summary) ∧
        ∀ err, outcome = .error err →
          Breaks r ⟨registry, budget, plan.relocations⟩ plan s vs err s' := by
  rcases visits_of_run isDir ran with unplanned | ⟨plan, vs, planned, visits, concludes⟩
  · exact Or.inl unplanned
  · obtain ⟨excluded, -, survey, -⟩ := plan_eq_ok planned
    have frontend : plan.survey.frontend = r.frontend := by rw [survey, frontend_survey]
    refine Or.inr ⟨plan, vs, planned, visits, ?_⟩
    cases concludes with
    | summary results =>
        refine ⟨?_, fun _ same => nomatch same⟩
        rintro summary same
        cases same
        exact accounts_of_visits visits results
    | error whole results broken =>
        refine ⟨fun _ same => (nomatch same), ?_⟩
        rintro err same
        cases same
        exact breaks_of_visits frontend visits whole results broken

/-- A handler that ends the run where it is called. -/
def stopping : Handler Unit := fun _ _ _ state => ⟨state, [], [], .ok .stop⟩

def mixedRegistry : Registry (Handler Unit) := .ofList [("m", adding), ("stop", stopping)]

/-- A unit that cannot be read, one that is added to, one that ends the run, and one more. -/
def mixedEntry : Entry :=
  .dir [("a.rmc", .file (.text "(fn")),
    ("b.rmc", .file (.text ";; macro:use m\n(fn B)\n")),
    ("c.rmc", .file (.text ";; macro:use stop\n(fn C)\n")),
    ("d.rmc", .file (.text ";; macro:use m\n(fn D)\n"))]

def mixedFiles : FileSystem := ⟨.dir [("src", mixedEntry)], []⟩

def mixedStart : State Unit := ⟨⟨.fresh, mixedFiles⟩, ()⟩

def mixedEntries : List UnitEntry :=
  [⟨⟨"/src/a.rmc"⟩, ⟨"a.rmc"⟩⟩, ⟨⟨"/src/b.rmc"⟩, ⟨"b.rmc"⟩⟩, ⟨⟨"/src/c.rmc"⟩, ⟨"c.rmc"⟩⟩,
    ⟨⟨"/src/d.rmc"⟩, ⟨"d.rmc"⟩⟩]

def mixedPlan : Plan :=
  ⟨none, (appendRun "_gen").survey ⟨"/src"⟩ none [], mixedEntries, none⟩

theorem plan_mixedFiles : (appendRun "_gen").plan mixedFiles = .ok mixedPlan := by
  have named : mixedFiles.root.wellNamed = true := by decide +kernel
  have discovered : mixedPlan.survey.discover mixedFiles = .ok mixedPlan.entries := by
    refine (Survey.discover_of_select mixedEntry
      (["a.rmc", "b.rmc", "c.rmc", "d.rmc"].map fun name => ⟨⟨"/src"⟩, [name]⟩)
      (Entry.unambiguous_of_wellNamed named) rfl ?_).trans (by decide +kernel)
    have listed : mixedEntry.listing mixedPlan.survey.root =
        .dir [("a.rmc", .file), ("b.rmc", .file), ("c.rmc", .file), ("d.rmc", .file)] := by
      rfl
    rw [listed, Survey.steps, Listing.walk_dir, Listing.inOrder_of_pairwise (by decide +kernel)]
    decide +kernel
  exact plan_eq_ok_iff.mpr ⟨⟨"/src"⟩, [], by rfl, by rfl, by simp [mixedPlan], by rfl, by rfl,
    discovered, by rfl⟩

theorem run_accounts_mixedFiles :
    ∃ summary s' vs,
      (appendRun "_gen").run mixedRegistry 9 mixedStart = some (.ok summary, s') ∧
      summary.files.map (·.status) = [.failed, .written, .stopped] ∧ summary.exitCode = 3 ∧
      Visits (appendRun "_gen") ⟨mixedRegistry, 9, none⟩ none mixedStart mixedEntries vs s' ∧
      Accounts (appendRun "_gen") mixedEntries vs summary := by
  have isDir : mixedStart.out.files.isDir (appendRun "_gen").source = true := by decide +kernel
  have ended : ((appendRun "_gen").run mixedRegistry 9 mixedStart).bind (fun done =>
      done.1.toOption.map fun s => (s.files.map (·.status), s.exitCode)) =
        some ([.failed, .written, .stopped], 3) := by
    have files : mixedStart.out.files = mixedFiles := rfl
    rw [run_of_isDir isDir, runDirectory, files, plan_mixedFiles]
    decide +kernel
  obtain ⟨⟨result, s'⟩, ran, ended⟩ := Option.bind_eq_some_iff.mp ended
  obtain ⟨summary, succeeded, ended⟩ := Option.map_eq_some_iff.mp ended
  obtain ⟨statuses, code⟩ := Prod.mk.inj ended
  cases result with
  | error e => cases succeeded
  | ok summary' =>
      obtain rfl : summary' = summary := Option.some.inj succeeded
      rcases run_accounts isDir ran with
        ⟨err, -, failed, -⟩ | ⟨plan, vs, planned, visits, accounts, -⟩
      · cases failed
      · obtain rfl : mixedPlan = plan := Except.ok.inj (plan_mixedFiles.symm.trans planned)
        exact ⟨summary', s', vs, ran, statuses, code, visits, accounts summary' rfl⟩

end Run

end Graft
