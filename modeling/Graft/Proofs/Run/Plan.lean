import Graft.Proofs.Discovery.Stable
import Graft.Proofs.Run.Frame

/-!
# The plan of a run over a directory

A plan works with the absolute forms of source and output. Its survey passes over the output if
that lies below the source, and over files with generated names if the run appends.
-/

namespace Graft

open FileSystem (MayLeadTo)
open Graft.Path (IsName IsStep)

namespace Run

variable {r : Run} {fs fs' : FileSystem} {plan : Plan} {e : UnitEntry} {root : Entry}
variable {sourceRoot outputRoot output relative p : Path} {outputRoot? : Option Path}
variable {excluded : List (List Glob.Token)} {names place cwd : List String}

/-! ### The survey -/

/-- A survey differs from the plain one of its root in what it leaves out. -/
theorem survey_eq (r : Run) (sourceRoot : Path) (outputRoot? : Option Path)
    (excluded : List (List Glob.Token)) :
    ∃ skipped suffix?, r.survey sourceRoot outputRoot? excluded =
      ⟨r.frontend, sourceRoot, excluded, skipped, suffix?, r.settings.modulePath⟩ := by
  unfold survey
  simp only
  cases r.settings.append <;> cases outputRoot? <;> simp [Survey.skipGenerated, Survey.ofRoot] <;>
    split <;> simp [Survey.skip]

theorem root_survey : (r.survey sourceRoot outputRoot? excluded).root = sourceRoot := by
  obtain ⟨skipped, suffix?, same⟩ := r.survey_eq sourceRoot outputRoot? excluded
  rw [same]

theorem frontend_survey : (r.survey sourceRoot outputRoot? excluded).frontend = r.frontend := by
  obtain ⟨skipped, suffix?, same⟩ := r.survey_eq sourceRoot outputRoot? excluded
  rw [same]

theorem skipped_survey (inside : output.startsWith sourceRoot = true)
    (other : output.same sourceRoot = false) :
    (r.survey sourceRoot (some output) excluded).skipped = [output] := by
  unfold survey
  simp only [inside, other]
  cases r.settings.append <;> simp [Survey.skipGenerated, Survey.ofRoot, Survey.skip]

theorem generatedSuffix_survey (append : r.settings.append = true)
    (suffixed : r.settings.genSuffix ≠ "") :
    (r.survey sourceRoot outputRoot? excluded).generatedSuffix = some r.settings.genSuffix := by
  unfold survey
  simp only [append]
  simp [Survey.skipGenerated, suffixed]

/-! ### The plan -/

theorem absolute_eq_ok (formed : absolute fs p = .ok output) :
    output = Path.absolute fs.cwdPath p := by
  unfold absolute at formed
  split at formed
  · cases formed
  · cases formed
    rfl

theorem absoluteOutput_eq_ok (formed : r.absoluteOutput fs = .ok outputRoot?) :
    outputRoot? = r.output.map (Path.absolute fs.cwdPath) := by
  unfold absoluteOutput at formed
  split at formed
  · next none =>
      cases formed
      rw [none, Option.map_none]
  · next output some =>
      rw [some]
      cases absolute : absolute fs output with
      | error e =>
          rw [absolute] at formed
          cases formed
      | ok q =>
          rw [absolute] at formed
          cases formed
          rw [absolute_eq_ok absolute]
          rfl

/-- What a plan is made of. -/
theorem plan_eq_ok_iff : r.plan fs = .ok plan ↔
    ∃ sourceRoot excluded, absolute fs r.source = .ok sourceRoot ∧
      r.absoluteOutput fs = .ok plan.outputRoot ∧
      (∀ output ∈ plan.outputRoot, r.settings.append = false → fs.isFile output = false) ∧
      r.settings.excluded = .ok excluded ∧
      plan.survey = r.survey sourceRoot plan.outputRoot excluded ∧
      plan.survey.discover fs = .ok plan.entries ∧
      plan.relocations = (r.relocationRoot? sourceRoot plan.outputRoot).map fun output =>
        Relocations.ofIndex (plan.survey.packageIndex plan.entries) sourceRoot output := by
  unfold Run.plan
  constructor
  · intro planned
    obtain ⟨sourceRoot, source, planned⟩ := bind_eq_ok_iff.mp planned
    obtain ⟨outputRoot, output, planned⟩ := bind_eq_ok_iff.mp planned
    simp only at planned
    -- with an output that is no file and without an output the rest is the same
    have allowed : ∀ output ∈ outputRoot, r.settings.append = false →
        fs.isFile output = false := by
      rintro output rfl mirrors
      rw [← Bool.not_eq_true]
      intro file
      simp [mirrors, file, bind, Except.bind] at planned
    split at planned
    case' h_1 =>
      split at planned
      case isTrue => cases planned
    all_goals
      obtain ⟨⟨⟩, -, planned⟩ := bind_eq_ok_iff.mp planned
      obtain ⟨excluded, patterns, planned⟩ := bind_eq_ok_iff.mp planned
      obtain ⟨entries, discovered, planned⟩ := bind_eq_ok_iff.mp planned
      cases planned
      exact ⟨sourceRoot, excluded, source, output, allowed, patterns, rfl, discovered, rfl⟩
  · obtain ⟨outputRoot, survey, entries, relocations⟩ := plan
    simp only
    rintro ⟨sourceRoot, excluded, source, output, allowed, patterns, rfl, discovered, rfl⟩
    refine bind_eq_ok_iff.mpr ⟨sourceRoot, source, bind_eq_ok_iff.mpr ⟨outputRoot, output, ?_⟩⟩
    cases outputRoot with
    | none => simp [bind, Except.bind, patterns, discovered]
    | some out =>
        have noFile : (!r.settings.append && fs.isFile out) = false := by
          cases append : r.settings.append with
          | true => rfl
          | false => simp [allowed out rfl append]
        simp [noFile, bind, Except.bind, patterns, discovered]

/-- What a plan says about the output and the survey. -/
theorem plan_eq_ok (planned : r.plan fs = .ok plan) :
    ∃ excluded, plan.outputRoot = r.output.map (Path.absolute fs.cwdPath) ∧
      plan.survey = r.survey (Path.absolute fs.cwdPath r.source) plan.outputRoot excluded ∧
      plan.survey.discover fs = .ok plan.entries := by
  obtain ⟨sourceRoot, excluded, source, output, -, -, survey, discovered, -⟩ :=
    plan_eq_ok_iff.mp planned
  obtain rfl := absolute_eq_ok source
  exact ⟨excluded, absoluteOutput_eq_ok output, survey, discovered⟩

/-- A plan sees of the files only whether the output is a file, and what its survey finds. -/
theorem plan_congr (planned : r.plan fs = .ok plan) (cwd : fs'.cwd = fs.cwd)
    (noFile : ∀ output ∈ plan.outputRoot, r.settings.append = false →
      fs'.isFile output = fs.isFile output)
    (discovered : plan.survey.discover fs' = plan.survey.discover fs) :
    r.plan fs' = .ok plan := by
  have absolutes : ∀ p, absolute fs' p = absolute fs p := by
    intro p
    unfold absolute FileSystem.cwdPath
    rw [cwd]
  have outputs : r.absoluteOutput fs' = r.absoluteOutput fs := by
    unfold absoluteOutput
    simp only [absolutes]
  rw [plan_eq_ok_iff] at planned ⊢
  obtain ⟨sourceRoot, excluded, source, output, allowed, patterns, survey, found, relocations⟩ :=
    planned
  refine ⟨sourceRoot, excluded, (absolutes _).trans source, outputs.trans output, ?_, patterns,
    survey, discovered.trans found, relocations⟩
  exact fun output member mirrors => (noFile output member mirrors).trans
    (allowed output member mirrors)

/-! ### Units -/

/-- The unit of a plan, as its survey finds it. -/
theorem finds_of_plan (wellFormed : fs.WellFormed) (planned : r.plan fs = .ok plan)
    (member : e ∈ plan.entries) :
    ∃ excluded place root names,
      plan.survey = r.survey (Path.absolute fs.cwdPath r.source) plan.outputRoot excluded ∧
      fs.resolve (Path.absolute fs.cwdPath r.source) = .ok place ∧
      fs.root.at? place = some root ∧
      Survey.Finds plan.survey (Path.absolute fs.cwdPath r.source) ⟨""⟩ root e names := by
  obtain ⟨excluded, -, survey, discovered⟩ := plan_eq_ok planned
  have finds := Survey.finds_of_mem_discover wellFormed.root discovered member
  have located : plan.survey.root = Path.absolute fs.cwdPath r.source := by
    rw [survey, root_survey]
  rw [located] at finds
  obtain ⟨place, root, names, resolved, there, finds⟩ := finds
  exact ⟨excluded, place, root, names, survey, resolved, there, finds⟩

/-! ### Outputs below the source -/

/-- An output below the source is passed over, and it is where names lead to from there. -/
theorem skipped_below (r : Run) (excluded : List (List Glob.Token))
    (rooted : sourceRoot.isAbsolute = true) (rooted' : outputRoot.isAbsolute = true)
    {inner : List String} (inside : outputRoot.names = sourceRoot.names ++ inner) (given : inner ≠ []) :
    (r.survey sourceRoot (some outputRoot) excluded).skipped = [outputRoot] ∧
      outputRoot.same (sourceRoot.below inner) = true := by
  have starts : outputRoot.startsWith sourceRoot = true := by
    rw [Path.startsWith_iff rooted' rooted, inside]
    exact List.prefix_append _ _
  have other : outputRoot.same sourceRoot = false := by
    rw [← Bool.not_eq_true, Path.same_iff rooted' rooted, inside]
    simpa using given
  have steps : ∀ name ∈ inner, IsStep name := fun name member =>
    Path.isStep_of_mem_names (inside ▸ List.mem_append_right _ member)
  refine ⟨skipped_survey starts other, ?_⟩
  rw [Path.same_iff rooted' (by rw [Path.isAbsolute_below steps, rooted]), Path.names_below steps,
    inside]

/-- The survey looks for no unit at or below an output below the source. -/
theorem hides_below (rooted : sourceRoot.isAbsolute = true) (rooted' : outputRoot.isAbsolute = true)
    (noUp : ".." ∉ outputRoot.pieces) {inner : List String}
    (inside : outputRoot.names = sourceRoot.names ++ inner) (given : inner ≠ [])
    (initial : inner <+: names) :
    (r.survey sourceRoot (some outputRoot) excluded).Hides names := by
  obtain ⟨skipped, same⟩ := skipped_below r excluded rooted rooted' inside given
  have named : ∀ name ∈ inner, IsName name := by
    intro name member
    have lower : name ∈ outputRoot.names := inside ▸ List.mem_append_right _ member
    refine ⟨Path.isStep_of_mem_names lower, ?_⟩
    rintro rfl
    exact noUp (Path.up_mem_names.mp lower)
  refine Survey.hides_of_isSkipped initial ?_
  rw [root_survey, Survey.isSkipped, skipped, List.any_cons, List.any_nil, Bool.or_false,
    EntryPath.same, decide_eq_true_eq, EntryPath.key_toPath named, Path.Component.map_key_inj]
  exact (of_decide_eq_true same).symm

/-- No unit is found at or below the output when the output lies below the source. -/
theorem not_prefix_of_finds (rooted : sourceRoot.isAbsolute = true)
    (rooted' : outputRoot.isAbsolute = true)
    (finds : Survey.Finds (r.survey sourceRoot (some outputRoot) excluded) sourceRoot relative root
      e names)
    {inner : List String} (inside : outputRoot.names = sourceRoot.names ++ inner)
    (given : inner ≠ []) : ¬ inner <+: names := by
  intro initial
  obtain ⟨skipped, same⟩ := skipped_below r excluded rooted rooted' inside given
  have spared := finds.spared inner initial outputRoot (by simp [skipped])
  rw [same] at spared
  cases spared

/-! ### The places of units and outputs -/

theorem noUp_absolute (named : ∀ name ∈ fs.cwd, IsName name) (noUp : ".." ∉ p.pieces) :
    ".." ∉ (Path.absolute fs.cwdPath p).pieces := by
  refine Path.noUp_of_names (Path.names_absolute fs.cwdPath p) ?_ (mt Path.up_mem_names.mp noUp)
  split
  · exact List.not_mem_nil
  · rw [FileSystem.names_cwdPath named]
    exact Path.noUp_of_isName named

/-- The place that the absolute form of a path may lead to. -/
theorem place_of_absolute (rooted : p.isAbsolute = true) (noUp : ".." ∉ p.pieces)
    (leads : MayLeadTo cwd p place) : place = p.names := by
  rw [leads.direct noUp, rooted]
  rfl

/-- The path of a unit has the names of the source and those below it. -/
theorem names_of_finds {s : Survey} (finds : Survey.Finds s sourceRoot relative root e names) :
    e.path.isAbsolute = sourceRoot.isAbsolute ∧ e.path.names = sourceRoot.names ++ names := by
  rw [finds.located, Path.isAbsolute_below finds.isStep, Path.names_below finds.isStep]
  exact ⟨rfl, rfl⟩

theorem noUp_of_finds {s : Survey} (finds : Survey.Finds s sourceRoot relative root e names)
    (noUp : ".." ∉ output.pieces) (extended : p.names = output.names ++ names) :
    ".." ∉ p.pieces :=
  Path.noUp_of_names extended (mt Path.up_mem_names.mp noUp)
    (Path.noUp_of_isName fun name member => (finds.named name member).1)

/-- The place that the path of a unit may lead to. -/
theorem place_of_finds {s : Survey} (rooted : sourceRoot.isAbsolute = true)
    (noUp : ".." ∉ sourceRoot.pieces) (finds : Survey.Finds s sourceRoot relative root e names)
    (leads : MayLeadTo cwd e.path place) : place = sourceRoot.names ++ names := by
  obtain ⟨absolute, extended⟩ := names_of_finds finds
  rw [place_of_absolute (absolute.trans rooted) (noUp_of_finds finds noUp extended) leads, extended]

/-- The source of a run over a directory is a directory. -/
theorem place_of_source (named : ∀ name ∈ fs.cwd, IsName name) (noUp : ".." ∉ r.source.pieces)
    {entries : List (String × Entry)} (found : fs.entry r.source = .ok (.dir entries)) :
    fs.root.at? (Path.absolute fs.cwdPath r.source).names = some (.dir entries) := by
  obtain ⟨place, resolved, there⟩ := FileSystem.entry_eq_ok_iff.mp found
  rw [Path.names_absolute, FileSystem.names_cwdPath named]
  rwa [FileSystem.place_of_resolve resolved noUp, FileSystem.start] at there

/-- The units of a directory stand below it. -/
theorem names_ne_nil_of_finds {s : Survey} (named : ∀ name ∈ fs.cwd, IsName name)
    (noUp : ".." ∉ r.source.pieces) {entries : List (String × Entry)}
    (found : fs.entry r.source = .ok (.dir entries))
    (resolved : fs.resolve (Path.absolute fs.cwdPath r.source) = .ok place)
    (there : fs.root.at? place = some root)
    (finds : Survey.Finds s sourceRoot relative root e names) : names ≠ [] := by
  rintro rfl
  obtain ⟨content, file⟩ := finds.file
  have directory := place_of_source named noUp found
  have source := FileSystem.place_of_resolve resolved (noUp_absolute named noUp)
  rw [FileSystem.start, fs.isAbsolute_absolute, if_pos rfl, List.nil_append] at source
  rw [source, directory] at there
  cases there
  cases file

end Run

end Graft
