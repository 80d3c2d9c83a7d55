import Graft.Proofs.Run.Plan

/-!
# Mirrored runs

The units of a directory that go to the same relative paths of an output directory stay as they
were, whatever the handlers do and however the run ends. So the run loads each of them with its
original content, whatever it has written before. An output below the source is passed over by the
survey, and an output beside it has no unit in it. This needs that no `..` leads to source or
output, so that their names tell where they are.

An output above the source is another matter: its files can be units. `mirror_overwrites_unit` has
a run that writes a unit before it loads it.
-/

namespace Graft

open FileSystem (Keeps MayLeadTo)

namespace Run

variable {σ : Type} {r : Run} {fs : FileSystem} {plan : Plan} {e : UnitEntry} {root : Entry}
variable {outputRoot output p : Path} {names place cwd : List String} {s s' : State σ}
variable {registry : Registry (Handler σ)} {budget : Nat} {result : Except Error Summary}

/-- What keeps the units of a directory away from each other's mirrored paths: an output that is
not above the source, or units that happen not to meet. -/
def MirrorsApart (r : Run) (fs : FileSystem) (output : Path) (plan : Plan) : Prop :=
  let sourceRoot := Path.absolute fs.cwdPath r.source
  let outputRoot := Path.absolute fs.cwdPath output
  sourceRoot.startsWith outputRoot = false ∨
    ∀ e ∈ plan.entries, ∀ e' ∈ plan.entries, (outputRoot.join e.relative).same e'.path = false

/-- A mirrored path has the names of the output and those of the unit. -/
theorem names_mirrored {s : Survey} (finds : Survey.Finds s p ⟨""⟩ root e names)
    (outputRoot : Path) :
    (outputRoot.join e.relative).isAbsolute = outputRoot.isAbsolute ∧
      (outputRoot.join e.relative).names = outputRoot.names ++ names := by
  have relative : e.relative.isAbsolute = false := by
    rw [finds.mirrored, Path.isAbsolute_below finds.isStep, Path.isAbsolute_empty]
  rw [Path.isAbsolute_join relative, Path.names_join relative, finds.mirrored,
    Path.names_below finds.isStep, Path.names_empty]
  exact ⟨rfl, rfl⟩

/-- The place that a mirrored path may lead to. -/
theorem place_of_mirrored {s : Survey} (rooted : outputRoot.isAbsolute = true)
    (noUp : ".." ∉ outputRoot.pieces) (finds : Survey.Finds s p ⟨""⟩ root e names)
    (leads : MayLeadTo cwd (outputRoot.join e.relative) place) :
    place = outputRoot.names ++ names := by
  obtain ⟨absolute, extended⟩ := names_mirrored finds outputRoot
  rw [place_of_absolute (absolute.trans rooted) (noUp_of_finds finds noUp extended) leads, extended]

/-- No unit stands where a unit is mirrored to. -/
theorem mirrored_apart (mirrors : r.settings.append = false) (target : r.output = some output)
    (direct : ".." ∉ r.source.pieces ∧ ".." ∉ output.pieces) (wellFormed : fs.WellFormed)
    (planned : r.plan fs = .ok plan) (apart : r.MirrorsApart fs output plan)
    (member : e ∈ plan.entries) (leads : MayLeadTo fs.cwd e.path place) :
    ¬ r.MayTouch plan.outputRoot plan.entries fs.cwd place := by
  rintro ⟨e', member', q, path, leads'⟩
  obtain ⟨-, planTarget, -, -⟩ := plan_eq_ok planned
  obtain ⟨excluded, start, root, names, survey, resolved, there, finds⟩ :=
    finds_of_plan wellFormed planned member
  obtain ⟨_, _, root', names', -, -, -, finds'⟩ := finds_of_plan wellFormed planned member'
  rw [target, Option.map_some] at planTarget
  simp only [entryDestination, planTarget, mirrors] at path
  cases path
  have rooted := fs.isAbsolute_absolute r.source
  have rooted' := fs.isAbsolute_absolute output
  have here := place_of_finds rooted (noUp_absolute wellFormed.cwd direct.1) finds leads
  have same := place_of_mirrored rooted' (noUp_absolute wellFormed.cwd direct.2) finds' leads'
  have meet := same.symm.trans here
  rcases apart with outside | noneMeet
  · rw [← Bool.not_eq_true, Path.startsWith_iff rooted rooted'] at outside
    rcases List.append_eq_append_iff.mp meet with ⟨rest, below, -⟩ | ⟨inner, inside, ends⟩
    · exact outside (below ▸ List.prefix_append _ _)
    · rw [survey, planTarget] at finds
      refine not_prefix_of_finds rooted rooted' finds inside ?_ (ends ▸ List.prefix_append _ _)
      rintro rfl
      rw [inside, List.append_nil] at outside
      exact outside (List.prefix_refl _)
  · have different := noneMeet e' member' e member
    obtain ⟨absolute, extended⟩ := names_of_finds finds
    obtain ⟨absolute', extended'⟩ := names_mirrored finds' (Path.absolute fs.cwdPath output)
    rw [← Bool.not_eq_true, Path.same_iff (absolute'.trans rooted') (absolute.trans rooted),
      extended, extended'] at different
    exact different meet

/-- **Sources of mirrored runs.** A run that writes the units of a directory to the same relative
paths of an output leaves the units as they are, if no unit stands where one is written to. It
goes on as if all units had been loaded before it. -/
theorem mirror_keeps_sources (mirrors : r.settings.append = false) (target : r.output = some output)
    (direct : ".." ∉ r.source.pieces ∧ ".." ∉ output.pieces)
    (wellFormed : s.out.files.WellFormed) (isDir : s.out.files.isDir r.source = true)
    (planned : r.plan s.out.files = .ok plan) (apart : r.MirrorsApart s.out.files output plan)
    (ran : r.run registry budget s = some (result, s')) :
    (∀ e ∈ plan.entries, s'.out.files.entry e.path = s.out.files.entry e.path) ∧
      let visit := r.visitEntry ⟨registry, budget, plan.relocations⟩ plan.outputRoot
      let start : Progress σ := ⟨s, .empty, none, false⟩
      plan.survey.walk (fun g => g.state.out.files) visit start plan.entries =
        plan.survey.walk (fun _ => s.out.files) visit start plan.entries := by
  obtain ⟨-, -, -, discovered⟩ := plan_eq_ok planned
  have unchanged : ∀ (fs' : FileSystem) (e : UnitEntry), e ∈ plan.entries →
      Keeps (r.MayTouch plan.outputRoot plan.entries s.out.files.cwd) s.out.files fs' →
      fs'.entry e.path = s.out.files.entry e.path := fun fs' e member kept =>
    Survey.entry_of_keeps wellFormed.root discovered member kept fun place leads =>
      mirrored_apart mirrors target direct wellFormed planned apart member leads
  rw [run_of_isDir isDir] at ran
  refine ⟨fun e member => unchanged _ e member (runDirectory_keeps planned ran), ?_⟩
  intro visit start
  have kept : r.Kept plan.outputRoot plan.entries s.out.files start := Keeps.refl _ _
  refine plan.survey.walk_congr kept (kept_visitEntry _) ?_
  intro g e member kept
  exact loadUnit_congr (unchanged _ e member kept) _

/-- A directory `a` with a directory `b` of two units, one of them in another directory `b`. -/
def nestedFiles : FileSystem :=
  ⟨.dir [("a", .dir [("b", .dir [("b", .dir [("x.rmc", .file (.text "(fn Y)\n"))]),
    ("x.rmc", .file (.text "(fn X)\n"))])])], []⟩

def nestedStart : State Unit := ⟨⟨.fresh, nestedFiles⟩, ()⟩

/-- A run that mirrors the units of a directory. -/
def mirrorRun (source output : String) : Run :=
  ⟨Sexp.frontend, ⟨source⟩, some ⟨output⟩, Settings.standard⟩

theorem mirror_keeps_sources_nestedFiles :
    ∃ plan result s', (mirrorRun "a/b/b" "out").plan nestedFiles = .ok plan ∧
      (mirrorRun "a/b/b" "out").run (.ofList []) 9 nestedStart = some (result, s') ∧
      plan.entries.map (·.path) = [⟨"/a/b/b/x.rmc"⟩] ∧
      (s'.out.files.readText ⟨"out/x.rmc"⟩).toOption = some "(fn Y)\n" ∧
      ∀ e ∈ plan.entries, s'.out.files.entry e.path = nestedFiles.entry e.path := by
  have planned : ((mirrorRun "a/b/b" "out").plan nestedFiles).toOption.map
      (fun plan => plan.entries.map (·.path)) = some [⟨"/a/b/b/x.rmc"⟩] := by
    decide +kernel
  have written : ((mirrorRun "a/b/b" "out").run (.ofList []) 9 nestedStart).map
      (fun done => (done.2.out.files.readText ⟨"out/x.rmc"⟩).toOption) =
        some (some "(fn Y)\n") := by
    decide +kernel
  obtain ⟨plan, planned, entries⟩ := Option.map_eq_some_iff.mp planned
  obtain ⟨⟨result, s'⟩, ran, written⟩ := Option.map_eq_some_iff.mp written
  have planned : (mirrorRun "a/b/b" "out").plan nestedFiles = .ok plan := by
    cases made : (mirrorRun "a/b/b" "out").plan nestedFiles with
    | error e => simp [made, Except.toOption] at planned
    | ok plan' => simpa [made, Except.toOption] using planned
  have outside : (Path.absolute nestedFiles.cwdPath ⟨"a/b/b"⟩).startsWith
      (Path.absolute nestedFiles.cwdPath ⟨"out"⟩) = false := by
    decide +kernel
  obtain ⟨kept, -⟩ := mirror_keeps_sources rfl rfl (by decide)
    (s := nestedStart) ⟨by decide +kernel, by decide⟩ (by decide +kernel) planned
    (Or.inl outside) ran
  exact ⟨plan, result, s', planned, ran, entries, written, kept⟩

/-- The units of `a/b`. -/
def nestedEntries : List UnitEntry :=
  [⟨⟨"/a/b/b/x.rmc"⟩, ⟨"b/x.rmc"⟩⟩, ⟨⟨"/a/b/x.rmc"⟩, ⟨"x.rmc"⟩⟩]

def upwardSurvey : Survey := (mirrorRun "a/b" "a").survey ⟨"/a/b"⟩ (some ⟨"/a"⟩) []

def upwardPlan : Plan :=
  ⟨some ⟨"/a"⟩, upwardSurvey, nestedEntries,
    some (.ofIndex (upwardSurvey.packageIndex nestedEntries) ⟨"/a/b"⟩ ⟨"/a"⟩)⟩

theorem discover_upward : upwardSurvey.discover nestedFiles = .ok nestedEntries := by
  have named : nestedFiles.root.wellNamed = true := by decide +kernel
  refine (Survey.discover_of_select _ [⟨⟨"/a/b"⟩, ["b", "x.rmc"]⟩, ⟨⟨"/a/b"⟩, ["x.rmc"]⟩]
    (Entry.unambiguous_of_wellNamed named) rfl ?_).trans (by decide +kernel)
  have listed : Entry.listing upwardSurvey.root
      (.dir [("b", .dir [("x.rmc", .file (.text "(fn Y)\n"))]),
        ("x.rmc", .file (.text "(fn X)\n"))]) =
      .dir [("b", .dir [("x.rmc", .file)]), ("x.rmc", .file)] := by
    rfl
  rw [listed, Survey.steps, Listing.walk_dir, Listing.inOrder_of_pairwise (by decide +kernel)]
  decide +kernel

theorem plan_upward : (mirrorRun "a/b" "a").plan nestedFiles = .ok upwardPlan := by
  have source : absolute nestedFiles (mirrorRun "a/b" "a").source = .ok ⟨"/a/b"⟩ := by rfl
  have target : (mirrorRun "a/b" "a").absoluteOutput nestedFiles = .ok (some ⟨"/a"⟩) := by rfl
  have excluded : (mirrorRun "a/b" "a").settings.excluded = .ok [] := by rfl
  have noFile : nestedFiles.isFile ⟨"/a"⟩ = false := by decide +kernel
  have discovered := discover_upward
  rw [upwardSurvey] at discovered
  simp only [plan, bind, Except.bind, source, target, excluded, noFile, discovered, Bool.and_false,
    Bool.false_eq_true, if_false]
  rfl

/-- An output above the source takes the text of one unit to the place of another, which is loaded
afterwards. -/
theorem mirror_overwrites_unit :
    (nestedFiles.readText ⟨"a/b/x.rmc"⟩).toOption = some "(fn X)\n" ∧
      ((mirrorRun "a/b" "a").run (.ofList []) 9 nestedStart).map
        (fun done => (done.2.out.files.readText ⟨"a/b/x.rmc"⟩).toOption) =
          some (some "(fn Y)\n") := by
  refine ⟨by decide +kernel, ?_⟩
  have files : nestedStart.out.files = nestedFiles := rfl
  rw [run_of_isDir (by decide +kernel), runDirectory, files, plan_upward]
  decide +kernel

end Run

end Graft
