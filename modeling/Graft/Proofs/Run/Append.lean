import Graft.Proofs.Run.Plan

/-!
# Append runs

A run that appends leaves its units alone: whatever the handlers do and however the run ends, the
file of every unit is as it was. This needs that additions go where no unit is. Beside a unit it
takes a suffix, without a separator, for then the names of the other units end in another stem.
At an output it takes that no `..` leads there: only then the run sees whether the output is one of
its units.

Without these conditions a source is lost: `append_overwrites_unit` has a run with an empty suffix.
-/

namespace Graft

open FileSystem (MayLeadTo)

namespace Run

variable {σ : Type} {r : Run} {fs : FileSystem} {plan : Plan} {e e' : UnitEntry}
variable {relative p : Path} {root : Entry} {place : List String} {s s' : State σ}
variable {registry : Registry (Handler σ)} {budget : Nat} {result : Except Error Summary}

/-! ### Generated names -/

/-- A file that is handled has a name with an extension. -/
theorem cut_of_canHandle {f : Frontend} (handled : f.canHandle p = true) :
    ∃ name stem extension, p.fileName? = some name ∧
      Path.cutName name = (stem, some extension) := by
  unfold Frontend.canHandle Path.extension? at handled
  cases last : p.fileName? with
  | none => simp [last, Frontend.knows] at handled
  | some name =>
      cases cut : Path.cutName name with
      | mk stem extension? =>
          cases extension? with
          | none => simp [last, cut, Frontend.knows] at handled
          | some extension => exact ⟨name, stem, extension, rfl, cut⟩

/-- The name that the additions of a unit go to is a generated one. -/
theorem suffix_of_fileName? {f : Frontend} {name : String} (suffixed : r.settings.genSuffix ≠ "")
    (whole : '/' ∉ r.settings.genSuffix.toList) (handled : f.canHandle e.path = true)
    (last : (r.generatedPath e.path).fileName? = some name) :
    r.settings.genSuffix.toList <:+ (Path.cutName name).1.toList := by
  obtain ⟨own, stem, extension, ownLast, cut⟩ := cut_of_canHandle handled
  have isName := Path.isName_generatedName (Path.isName_of_fileName? ownLast) suffixed whole
  rw [fileName?_generatedPath ownLast isName, Option.some.injEq] at last
  rw [← last, Path.cutName_generatedName cut, String.toList_append]
  exact List.suffix_append _ _

/-- No unit has the name that another one's additions go to. -/
theorem fileName?_ne_generatedPath {s : Survey} {path relative' : Path} {root' : Entry}
    {names names' : List String} (recognised : s.generatedSuffix = some r.settings.genSuffix)
    (suffixed : r.settings.genSuffix ≠ "") (whole : '/' ∉ r.settings.genSuffix.toList)
    (finds : Survey.Finds s path relative root e names)
    (finds' : Survey.Finds s p relative' root' e' names') :
    e'.path.fileName? ≠ (r.generatedPath e.path).fileName? := by
  intro same
  obtain ⟨name, -, -, last, -⟩ := cut_of_canHandle finds'.handled
  refine finds'.ungenerated _ (Path.cutName name).1 recognised (by rw [Path.stem?, last]; rfl) ?_
  exact suffix_of_fileName? suffixed whole finds.handled (same.symm.trans last)

/-! ### Append runs -/

/-- The files that a run takes units from. -/
def sources (r : Run) (fs : FileSystem) : List Path :=
  match fs.entry r.source with
  | .error _ => []
  | .ok (.file _) => [r.source]
  | .ok (.dir _) =>
    match r.plan fs with
    | .error _ => []
    | .ok plan => plan.entries.map (·.path)

/-- What keeps the additions of a run away from its units: a suffix that makes another name in the
same directory, or an output that no `..` leads to, from a source that none leads to if it is a
directory. -/
def AppendsApart (r : Run) (fs : FileSystem) : Prop :=
  match r.output with
  | none => r.settings.genSuffix ≠ "" ∧ '/' ∉ r.settings.genSuffix.toList
  | some output => ".." ∉ output.pieces ∧ (fs.isDir r.source → ".." ∉ r.source.pieces)

/-- A single unit is not where its additions go to. -/
theorem unit_apart (append : r.settings.append = true) (apart : r.AppendsApart fs)
    {d : Destination} (chosen : r.fileDestination fs = .ok d)
    (resolved : fs.resolve r.source = .ok place) {content : Content}
    (there : fs.root.at? place = some (.file content)) : ¬ d.MayTouch fs.cwd place := by
  rintro ⟨q, path, leads⟩
  have leads' := FileSystem.mayLeadTo_of_resolve resolved there
  unfold fileDestination at chosen
  unfold AppendsApart at apart
  cases target : r.output with
  | none =>
      simp only [target, append] at chosen apart
      cases chosen
      cases path
      obtain ⟨name, -, -, last⟩ := leads'.last
      have source : r.source.fileName? = some name := by rw [← leads'.fileName?, last]
      have isName := Path.isName_of_fileName? source
      have beside := fileName?_generatedPath source
        (Path.isName_generatedName isName apart.1 apart.2)
      rw [leads.fileName?, beside] at last
      exact Path.generatedName_ne isName.given apart.1 (Option.some.inj last)
  | some output =>
      simp only [target, append] at chosen apart
      split at chosen
      · cases chosen
      · split at chosen
        · cases chosen
        · next different =>
            cases chosen
            cases path
            apply different
            rw [FileSystem.samePlace, FileSystem.resolve_of_mayLeadTo leads apart.1 there, resolved]
            simp

/-- No unit of a directory is where the additions of one of them go to. -/
theorem units_apart (append : r.settings.append = true) (apart : r.AppendsApart fs)
    (wellFormed : fs.WellFormed) {entries : List (String × Entry)}
    (found : fs.entry r.source = .ok (.dir entries)) (planned : r.plan fs = .ok plan)
    (member : e ∈ plan.entries) (leads : MayLeadTo fs.cwd e.path place) :
    ¬ r.MayTouch plan.outputRoot plan.entries fs.cwd place := by
  rintro ⟨e', member', q, path, leads'⟩
  obtain ⟨-, output, -, -⟩ := plan_eq_ok planned
  obtain ⟨excluded, start, root, names, survey, resolved, there, finds⟩ :=
    finds_of_plan wellFormed planned member
  unfold AppendsApart at apart
  cases target : r.output with
  | none =>
      simp only [target] at apart output
      simp only [entryDestination, output, append, Option.map_none] at path
      cases path
      obtain ⟨_, _, _, _, -, -, -, finds'⟩ := finds_of_plan wellFormed planned member'
      have recognised : plan.survey.generatedSuffix = some r.settings.genSuffix := by
        rw [survey, generatedSuffix_survey append apart.1]
      have differ := fileName?_ne_generatedPath recognised apart.1 apart.2 finds' finds
      exact differ (leads.fileName?.symm.trans leads'.fileName?)
  | some o =>
      simp only [target] at apart output
      simp only [entryDestination, output, append, Option.map_some] at path
      cases path
      have isDir : fs.isDir r.source := by simp [FileSystem.isDir, found]
      have noUp := noUp_absolute wellFormed.cwd (apart.2 isDir)
      have rooted := fs.isAbsolute_absolute r.source
      have rooted' := fs.isAbsolute_absolute o
      have here := place_of_finds rooted noUp finds leads
      have same := place_of_absolute rooted' (noUp_absolute wellFormed.cwd apart.1) leads'
      rw [survey, output, Option.map_some] at finds
      exact not_prefix_of_finds rooted rooted' finds (same.symm.trans here)
        (names_ne_nil_of_finds wellFormed.cwd (apart.2 isDir) found resolved there finds)
        (List.prefix_refl _)

/-- **Sources of append runs.** -/
theorem append_keeps_sources (append : r.settings.append = true)
    (apart : r.AppendsApart s.out.files) (wellFormed : s.out.files.WellFormed)
    (ran : r.run registry budget s = some (result, s')) :
    ∀ p ∈ r.sources s.out.files, s'.out.files.entry p = s.out.files.entry p := by
  intro p member
  unfold sources at member
  unfold run at ran
  cases found : s.out.files.entry r.source with
  | error fault =>
      rw [found] at member
      cases member
  | ok e =>
      cases e with
      | file content =>
          rw [found] at member ran
          obtain rfl := List.mem_singleton.mp member
          simp only at ran
          split at ran
          · cases ran
            rfl
          · next d chosen =>
              obtain ⟨place, resolved, there⟩ := FileSystem.entry_eq_ok_iff.mp found
              exact (runUnit_keeps ran).entry resolved there
                (unit_apart append apart chosen resolved there)
      | dir entries =>
          rw [found] at member ran
          simp only at member ran
          split at member
          · cases member
          · next plan planned =>
              obtain ⟨e, inside, rfl⟩ := List.mem_map.mp member
              obtain ⟨-, -, -, discovered⟩ := plan_eq_ok planned
              exact Survey.entry_of_keeps wellFormed.root discovered inside
                (runDirectory_keeps planned ran)
                fun place leads => units_apart append apart wellFormed found planned inside leads

/-- A handler that adds a declaration after what it stands on. -/
def adding : Handler Unit := fun _ phase _ state =>
  let edits := match phase with
    | .pre => [Edit.insertAfter (.list .decl "fn" [.ident "B"])]
    | .post => []
  ⟨state, edits, [], .ok .skipChildren⟩

def addingRegistry : Registry (Handler Unit) := .ofList [("m", adding)]

/-- A directory of one unit, which asks for `adding`. -/
def unitFiles : FileSystem :=
  ⟨.dir [("src", .dir [("a.rmc", .file (.text ";; macro:use m\n(fn A)\n"))])], []⟩

def unitStart : State Unit := ⟨⟨.fresh, unitFiles⟩, ()⟩

/-- A run that appends beside the units of the directory. -/
def appendRun (suffix : String) : Run :=
  ⟨Sexp.frontend, ⟨"src"⟩, none, { Settings.standard with append := true, genSuffix := suffix }⟩

theorem append_keeps_sources_unitFiles :
    ∃ result s', (appendRun "_gen").run addingRegistry 9 unitStart = some (result, s') ∧
      (appendRun "_gen").sources unitFiles = [⟨"/src/a.rmc"⟩] ∧
      (s'.out.files.readText ⟨"src/a_gen.rmc"⟩).toOption = some "(fn B)\n" ∧
      ∀ p ∈ (appendRun "_gen").sources unitFiles, s'.out.files.entry p = unitFiles.entry p := by
  have written : ((appendRun "_gen").run addingRegistry 9 unitStart).map
      (fun done => (done.2.out.files.readText ⟨"src/a_gen.rmc"⟩).toOption) =
        some (some "(fn B)\n") := by
    decide +kernel
  obtain ⟨⟨result, s'⟩, ran, written⟩ := Option.map_eq_some_iff.mp written
  have apart : (appendRun "_gen").AppendsApart unitFiles := by
    simp only [AppendsApart, appendRun]
    decide
  exact ⟨result, s', ran, by decide +kernel, written,
    append_keeps_sources rfl apart ⟨by decide +kernel, by decide⟩ ran⟩

/-- With an empty suffix the additions of a unit take its place. -/
theorem append_overwrites_unit :
    (unitFiles.readText ⟨"src/a.rmc"⟩).toOption = some ";; macro:use m\n(fn A)\n" ∧
      ((appendRun "").run addingRegistry 9 unitStart).map
        (fun done => (done.2.out.files.readText ⟨"src/a.rmc"⟩).toOption) =
          some (some "(fn B)\n") := by
  constructor <;> decide +kernel

end Run

end Graft
