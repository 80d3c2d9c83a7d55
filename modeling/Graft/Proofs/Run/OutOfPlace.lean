import Graft.Proofs.Discovery.Stable
import Graft.Proofs.Run.Append
import Graft.Proofs.Run.Course
import Graft.Proofs.Run.Mirror

/-!
# Runs that write out of place

A run over a directory writes out of place if it mirrors the units to an output that is not at or
above the source, or adds to files with generated names or to a shared output. The files it writes
are then no units, neither before nor after the run: they are passed over, or their names are
recognised as generated. So the plan of the run stays the same in all states that it goes through,
and in the files that it leaves behind.

The units of such a run are written to different places, unless they share the output.
-/

namespace Graft

open FileSystem (Changes IsDirAt MayLeadTo checkText)
open Graft.Path (IsName)
open Sink.State (Apart)

namespace Run

variable {r : Run} {fs fs' : FileSystem} {plan : Plan} {e e' : UnitEntry} {root : Entry}
variable {sourceRoot p : Path} {names place cwd : List String} {entries : List (String × Entry)}

/-- What keeps the files that a run writes away from the files that it reads. -/
def OutOfPlace (r : Run) (fs : FileSystem) : Prop :=
  match r.output, r.settings.append with
  | none, true => r.settings.genSuffix ≠ "" ∧ '/' ∉ r.settings.genSuffix.toList
  | some output, true => ".." ∉ output.pieces
  | some output, false =>
    ".." ∉ output.pieces ∧
      (Path.absolute fs.cwdPath r.source).startsWith (Path.absolute fs.cwdPath output) = false
  | none, false => False

/-- The three ways to write out of place. -/
theorem outOfPlace_cases (outOfPlace : r.OutOfPlace fs) :
    (r.output = none ∧ r.settings.append = true ∧ r.settings.genSuffix ≠ "" ∧
        '/' ∉ r.settings.genSuffix.toList) ∨
      (∃ output, r.output = some output ∧ r.settings.append = true ∧ ".." ∉ output.pieces) ∨
      ∃ output, r.output = some output ∧ r.settings.append = false ∧ ".." ∉ output.pieces ∧
        (Path.absolute fs.cwdPath r.source).startsWith (Path.absolute fs.cwdPath output) =
          false := by
  unfold OutOfPlace at outOfPlace
  split at outOfPlace
  · next target append => exact Or.inl ⟨target, append, outOfPlace⟩
  · next output target append => exact Or.inr (Or.inl ⟨output, target, append, outOfPlace⟩)
  · next output target append => exact Or.inr (Or.inr ⟨output, target, append, outOfPlace⟩)
  · exact outOfPlace.elim

/-- No unit stands where one of them is written to. -/
theorem unitsApart_of_outOfPlace (outOfPlace : r.OutOfPlace fs) (direct : ".." ∉ r.source.pieces)
    (wellFormed : fs.WellFormed) (found : fs.entry r.source = .ok (.dir entries))
    (planned : r.plan fs = .ok plan) : r.UnitsApart fs plan := by
  intro e member place leads
  rcases outOfPlace_cases outOfPlace with ⟨target, append, suffixed⟩ |
    ⟨output, target, append, noUp⟩ | ⟨output, target, mirrors, noUp, outside⟩
  · have apart : r.AppendsApart fs := by simpa [AppendsApart, target] using suffixed
    exact units_apart append apart wellFormed found planned member leads
  · have apart : r.AppendsApart fs := by simpa [AppendsApart, target] using ⟨noUp, fun _ => direct⟩
    exact units_apart append apart wellFormed found planned member leads
  · exact mirrored_apart mirrors target ⟨direct, noUp⟩ wellFormed planned (Or.inl outside) member
      leads

/-! ### The plan of changed files -/

/-- A plan finds its source at the names of the absolute form. -/
theorem place_of_plan (wellFormed : fs.WellFormed) (direct : ".." ∉ r.source.pieces)
    (planned : r.plan fs = .ok plan) :
    plan.survey.root = Path.absolute fs.cwdPath r.source ∧
      fs.resolve plan.survey.root = .ok plan.survey.root.names := by
  obtain ⟨excluded, -, survey, discovered⟩ := plan_eq_ok planned
  have located : plan.survey.root = Path.absolute fs.cwdPath r.source := by
    rw [survey, root_survey]
  obtain ⟨root, -, found, -⟩ :=
    (Survey.discover_eq_ok_iff (Entry.unambiguous_of_wellNamed wellFormed.root)).mp discovered
  obtain ⟨place, resolved, -⟩ := FileSystem.entry_eq_ok_iff.mp found
  have noUp : ".." ∉ plan.survey.root.pieces := located ▸ noUp_absolute wellFormed.cwd direct
  have source : place = plan.survey.root.names := by
    rw [FileSystem.place_of_resolve resolved noUp, FileSystem.start, located,
      fs.isAbsolute_absolute, if_pos rfl, List.nil_append]
  exact ⟨located, source ▸ resolved⟩

/-- A survey that leaves out generated names looks for no unit where additions go. -/
theorem hides_of_generated {s : Survey} (recognised : s.generatedSuffix = some r.settings.genSuffix)
    (suffixed : r.settings.genSuffix ≠ "") (whole : '/' ∉ r.settings.genSuffix.toList)
    (handled : s.frontend.canHandle e.path = true) (given : names ≠ [])
    (leads : MayLeadTo cwd (r.generatedPath e.path) (place ++ names)) : s.Hides names := by
  have ends := List.getLast?_eq_some_getLast given
  have last : (r.generatedPath e.path).fileName? = some (names.getLast given) := by
    rw [← leads.fileName?, List.getLast?_append, ends, Option.some_or]
  refine Or.inr (Bool.eq_false_iff.mpr fun accepted => ?_)
  obtain ⟨-, ungenerated, -⟩ := Survey.accepts_iff.mp accepted
  refine ungenerated _ (Path.cutName (names.getLast given)).1 recognised ?_
    (suffix_of_fileName? suffixed whole handled last)
  simp only [EntryPath.stem?, ends]
  rfl

/-- A plan looks for no unit where a file may be written below the source. -/
theorem hides_of_mayTouch (outOfPlace : r.OutOfPlace fs) (wellFormed : fs.WellFormed)
    (planned : r.plan fs = .ok plan) (given : names ≠ [])
    (touched : r.MayTouch plan.outputRoot plan.entries fs.cwd (plan.survey.root.names ++ names)) :
    plan.survey.Hides names := by
  obtain ⟨e, member, q, path, leads⟩ := touched
  obtain ⟨-, output, -, -⟩ := plan_eq_ok planned
  obtain ⟨excluded, place, root, inner, survey, -, -, finds⟩ :=
    finds_of_plan wellFormed planned member
  have rooted := fs.isAbsolute_absolute r.source
  have located : plan.survey.root = Path.absolute fs.cwdPath r.source := by
    rw [survey, root_survey]
  rw [located] at leads
  rcases outOfPlace_cases outOfPlace with ⟨target, append, suffixed, whole⟩ |
    ⟨o, target, append, noUp⟩ | ⟨o, target, mirrors, noUp, outside⟩
  · -- beside the units: the name is a generated one
    rw [target, Option.map_none] at output
    simp only [entryDestination, output, append] at path
    cases path
    have recognised : plan.survey.generatedSuffix = some r.settings.genSuffix := by
      rw [survey, generatedSuffix_survey append suffixed]
    exact hides_of_generated recognised suffixed whole finds.handled given leads
  · -- at the shared output: the survey passes over it
    rw [target, Option.map_some] at output
    simp only [entryDestination, output, append] at path
    cases path
    have rooted' := fs.isAbsolute_absolute o
    have direct := noUp_absolute wellFormed.cwd noUp
    have here := place_of_absolute rooted' direct leads
    rw [survey, output]
    exact hides_below rooted rooted' direct here.symm given (List.prefix_refl _)
  · -- below the output: the survey passes over it and what is below it
    rw [target, Option.map_some] at output
    simp only [entryDestination, output, mirrors] at path
    cases path
    have rooted' := fs.isAbsolute_absolute o
    have direct := noUp_absolute wellFormed.cwd noUp
    have here := place_of_mirrored rooted' direct finds leads
    rw [← Bool.not_eq_true, Path.startsWith_iff rooted rooted'] at outside
    rcases List.append_eq_append_iff.mp here with ⟨up, inside, rfl⟩ | ⟨rest, below, -⟩
    · rw [survey, output]
      refine hides_below rooted rooted' direct inside ?_ (List.prefix_append _ _)
      rintro rfl
      rw [inside, List.append_nil] at outside
      exact outside (List.prefix_refl _)
    · exact absurd (below ▸ List.prefix_append _ _) outside

/-- The directories below the source of a plan that stand in later files only can be listed. -/
def Plan.ListsMore (plan : Plan) (fs fs' : FileSystem) : Prop :=
  ∀ rel, rel ≠ [] → IsDirAt fs' (plan.survey.root.names ++ rel) →
    IsDirAt fs (plan.survey.root.names ++ rel) ∨ checkText (plan.survey.root.below rel) = .ok ()

/-- **Plans of changed files.** The plan of a run that writes out of place stays the same when the
files are changed where the run writes, if the new directories can be listed. -/
theorem plan_changes (outOfPlace : r.OutOfPlace fs) (direct : ".." ∉ r.source.pieces)
    (wellFormed : fs.WellFormed) (found : fs.entry r.source = .ok (.dir entries))
    (planned : r.plan fs = .ok plan)
    (changes : Changes (r.MayTouch plan.outputRoot plan.entries fs.cwd) fs fs')
    (listed : plan.ListsMore fs fs') : r.plan fs' = .ok plan := by
  obtain ⟨-, output, -, discovered⟩ := plan_eq_ok planned
  obtain ⟨located, resolved⟩ := place_of_plan wellFormed direct planned
  refine plan_congr planned changes.keeps.cwd ?_ ?_
  · intro q member mirrors
    rcases outOfPlace_cases outOfPlace with ⟨-, append, -⟩ | ⟨o, -, append, -⟩ |
      ⟨o, target, -, noUp, -⟩
    · exact absurd (append.symm.trans mirrors) (by decide)
    · exact absurd (append.symm.trans mirrors) (by decide)
    · rw [target, Option.map_some] at output
      obtain rfl : q = Path.absolute fs.cwdPath o := by simpa [output] using member.symm
      have rooted := fs.isAbsolute_absolute o
      have direct' := noUp_absolute wellFormed.cwd noUp
      rw [Bool.eq_iff_iff, FileSystem.isFile_iff, FileSystem.isFile_iff]
      refine exists_congr fun content => changes.entry_file_iff direct' ?_
      rintro place leads ⟨e, member, q, path, leads'⟩
      obtain ⟨excluded, start, root, names, -, resolved, there, finds⟩ :=
        finds_of_plan wellFormed planned member
      simp only [entryDestination, output, mirrors] at path
      cases path
      -- the units go below the output
      have below := place_of_mirrored rooted direct' finds leads'
      rw [place_of_absolute rooted direct' leads, List.self_eq_append_right] at below
      exact names_ne_nil_of_finds wellFormed.cwd direct found resolved there finds below
  · rw [discovered]
    exact Survey.discover_changes wellFormed.root changes resolved
      (fun names given touched => hides_of_mayTouch outOfPlace wellFormed planned given touched)
      listed discovered

/-! ### Where the units go -/

/-- The path of the additions beside a unit. -/
theorem direct_generated {s : Survey} (rooted : sourceRoot.isAbsolute = true)
    (noUp : ".." ∉ sourceRoot.pieces) (suffixed : r.settings.genSuffix ≠ "")
    (whole : '/' ∉ r.settings.genSuffix.toList)
    (finds : Survey.Finds s sourceRoot p root e names) (given : names ≠ []) :
    (r.generatedPath e.path).Direct ∧
      ∃ init name stem extension, names = init ++ [name] ∧
        Path.cutName name = (stem, some extension) ∧ (r.generatedPath e.path).names =
          sourceRoot.names ++ init ++ [Path.generatedName r.settings.genSuffix name] := by
  obtain ⟨name, stem, extension, last, cut⟩ := cut_of_canHandle finds.handled
  obtain ⟨absolute, extended⟩ := names_of_finds finds
  have absolute := absolute.trans rooted
  rcases List.eq_nil_or_concat names with rfl | ⟨init, final, rfl⟩
  · exact absurd rfl given
  · rw [List.concat_eq_append] at finds extended ⊢
    obtain rfl : final = name := by
      simpa [extended, ← List.append_assoc] using (Path.fileName?_eq_some_iff.mp last).1
    have isName := Path.isName_of_fileName? last
    have split : e.path.pieces = (sourceRoot.dirPieces ++ init) ++ [final] := by
      rw [finds.located, Path.pieces_below finds.isStep (by simp), List.append_assoc]
    obtain ⟨rooted', renamed⟩ := Path.names_withFileName absolute split isName
      (Path.isName_generatedName isName suffixed whole)
    rw [← generatedPath_eq last] at rooted' renamed
    rw [extended, ← List.append_assoc, List.dropLast_concat] at renamed
    refine ⟨⟨rooted', ?_⟩, init, final, stem, extension, rfl, cut, renamed⟩
    refine Path.noUp_of_names renamed ?_ (Path.noUp_of_isName ?_)
    · rw [List.mem_append, Path.up_mem_names]
      refine not_or.mpr ⟨noUp, Path.noUp_of_isName fun name member => ?_⟩
      exact (finds.named name (List.mem_append_left _ member)).1
    · simpa using Path.isName_generatedName isName suffixed whole

/-- The units go along direct paths. -/
theorem direct_of_path? (outOfPlace : r.OutOfPlace fs) (direct : ".." ∉ r.source.pieces)
    (wellFormed : fs.WellFormed) (found : fs.entry r.source = .ok (.dir entries))
    (planned : r.plan fs = .ok plan) (member : e ∈ plan.entries)
    (path : (r.entryDestination plan.outputRoot e).path? = some p) : p.Direct := by
  obtain ⟨-, output, -, -⟩ := plan_eq_ok planned
  obtain ⟨_, start, root, names, -, resolved, there, finds⟩ :=
    finds_of_plan wellFormed planned member
  rcases outOfPlace_cases outOfPlace with ⟨target, append, suffixed, whole⟩ |
    ⟨o, target, append, noUp⟩ | ⟨o, target, mirrors, noUp, -⟩
  · rw [target, Option.map_none] at output
    simp only [entryDestination, output, append] at path
    cases path
    exact (direct_generated (fs.isAbsolute_absolute r.source) (noUp_absolute wellFormed.cwd direct)
      suffixed whole finds
      (names_ne_nil_of_finds wellFormed.cwd direct found resolved there finds)).1
  · rw [target, Option.map_some] at output
    simp only [entryDestination, output, append] at path
    cases path
    exact ⟨fs.isAbsolute_absolute o, noUp_absolute wellFormed.cwd noUp⟩
  · rw [target, Option.map_some] at output
    simp only [entryDestination, output, mirrors] at path
    cases path
    obtain ⟨absolute, extended⟩ := names_mirrored finds (Path.absolute fs.cwdPath o)
    exact ⟨absolute.trans (fs.isAbsolute_absolute o),
      noUp_of_finds finds (noUp_absolute wellFormed.cwd noUp) extended⟩

/-- A run makes no directory that it cannot list afterwards: it lies on the way of a longer path,
which leads to a file. -/
theorem listsMore_of_writes {known : UnitEntry → Option Answer} {halts : Answer → Bool}
    {steps : List (UnitEntry × Answer)} {out out' : Sink.State}
    (outOfPlace : r.OutOfPlace out.files) (direct : ".." ∉ r.source.pieces) (wellFormed : out.files.WellFormed)
    (found : out.files.entry r.source = .ok (.dir entries)) (planned : r.plan out.files = .ok plan)
    (course : Course known halts plan.entries steps)
    (writes : out.Writes (r.writesOf plan.outputRoot steps) out') :
    plan.ListsMore out.files out'.files := by
  obtain ⟨located, -⟩ := place_of_plan wellFormed direct planned
  intro rel given isDir
  refine (writes.dirs _ isDir).imp_right ?_
  rintro ⟨w, member, p, path, onWay, target, ready⟩
  obtain ⟨step, inside, same, -⟩ := mem_writesOf.mp member
  rw [same] at path
  have straight := direct_of_path? outOfPlace direct wellFormed found planned
    (course.initial.subset (List.mem_map_of_mem inside)) path
  obtain ⟨⟨⟩, readable, -⟩ := bind_eq_ok_iff.mp ready.resolve
  refine FileSystem.checkText_below (located ▸ out.files.isAbsolute_absolute r.source) ?_ straight
    readable given (onWay.initial straight) ?_
  · rw [located]
    refine Path.tidy_absolute (Path.tidy_of_steps fun name member => ?_) _
    exact (wellFormed.cwd name member).toIsStep
  · -- a file stands at the names of the path, and here is a directory
    intro whole
    obtain ⟨below, dir⟩ := isDir
    obtain ⟨content, -, file⟩ := ready.opened
    rw [place_of_absolute straight.rooted straight.noUp ready.mayLeadTo, ← whole, dir] at file
    cases file

/-- Units with names of their own go to files of their own. -/
theorem apart_of_names_ne (outOfPlace : r.OutOfPlace fs) (direct : ".." ∉ r.source.pieces)
    (wellFormed : fs.WellFormed) (found : fs.entry r.source = .ok (.dir entries))
    (planned : r.plan fs = .ok plan) (own : r.output = none ∨ r.settings.append = false)
    (member : e ∈ plan.entries) (member' : e' ∈ plan.entries)
    (differ : e.relative.names ≠ e'.relative.names) :
    Apart fs.cwd (r.entryDestination plan.outputRoot e)
      (r.entryDestination plan.outputRoot e') := by
  rintro place ⟨q, path, leads⟩ ⟨q', path', leads'⟩
  obtain ⟨-, output, -, -⟩ := plan_eq_ok planned
  obtain ⟨_, start, root, names, -, resolved, there, finds⟩ :=
    finds_of_plan wellFormed planned member
  obtain ⟨_, _, _, names', -, resolved', there', finds'⟩ :=
    finds_of_plan wellFormed planned member'
  have rooted := fs.isAbsolute_absolute r.source
  have noUp := noUp_absolute wellFormed.cwd direct
  apply differ
  rw [finds.relative_names, finds'.relative_names]
  congr 1
  rcases outOfPlace_cases outOfPlace with ⟨target, append, suffixed, whole⟩ |
    ⟨o, target, append, -⟩ | ⟨o, target, mirrors, noUp', -⟩
  · rw [target, Option.map_none] at output
    simp only [entryDestination, output, append] at path path'
    cases path
    cases path'
    have given := names_ne_nil_of_finds wellFormed.cwd direct found resolved there finds
    have given' := names_ne_nil_of_finds wellFormed.cwd direct found resolved' there' finds'
    obtain ⟨straight, init, name, stem, extension, rfl, cut, here⟩ :=
      direct_generated rooted noUp suffixed whole finds given
    obtain ⟨straight', init', name', stem', extension', rfl, cut', here'⟩ :=
      direct_generated rooted noUp suffixed whole finds' given'
    have meet := (place_of_absolute straight.rooted straight.noUp leads).symm.trans
      (place_of_absolute straight'.rooted straight'.noUp leads')
    rw [here, here'] at meet
    obtain ⟨front, last⟩ := List.append_inj' meet rfl
    rw [List.append_cancel_left front, Path.generatedName_inj cut cut' (List.cons.inj last).1]
  · rcases own with none | own
    · rw [target] at none
      cases none
    · exact absurd (append.symm.trans own) (by decide)
  · rw [target, Option.map_some] at output
    simp only [entryDestination, output, mirrors] at path path'
    cases path
    cases path'
    have rooted' := fs.isAbsolute_absolute o
    have noUp' := noUp_absolute wellFormed.cwd noUp'
    have here := place_of_mirrored rooted' noUp' finds leads
    have here' := place_of_mirrored rooted' noUp' finds' leads'
    exact List.append_cancel_left (here.symm.trans here')

/-- Units that do not share a file go to different files. -/
theorem apart_of_own (outOfPlace : r.OutOfPlace fs) (direct : ".." ∉ r.source.pieces)
    (wellFormed : fs.WellFormed) (found : fs.entry r.source = .ok (.dir entries))
    (planned : r.plan fs = .ok plan) (own : r.output = none ∨ r.settings.append = false) :
    plan.entries.Pairwise fun e e' => Apart fs.cwd (r.entryDestination plan.outputRoot e)
      (r.entryDestination plan.outputRoot e') := by
  obtain ⟨-, -, -, discovered⟩ := plan_eq_ok planned
  have distinct := Survey.nodup_discover wellFormed.root discovered
  rw [List.Nodup, List.pairwise_map] at distinct
  exact distinct.imp_of_mem fun member member' differ =>
    apart_of_names_ne outOfPlace direct wellFormed found planned own member member' differ

/-- The units go to one file that they share, or each to a file of its own. -/
theorem shared_or_own (outOfPlace : r.OutOfPlace fs) (planned : r.plan fs = .ok plan) :
    (∃ output ∈ r.output, ∀ e,
        r.entryDestination plan.outputRoot e = .append (Path.absolute fs.cwdPath output)) ∨
      (r.output = none ∨ r.settings.append = false) ∧
        ∀ e, ∃ p, r.entryDestination plan.outputRoot e = .file p := by
  obtain ⟨-, output, -, -⟩ := plan_eq_ok planned
  rcases outOfPlace_cases outOfPlace with ⟨target, append, -⟩ | ⟨o, target, append, -⟩ |
    ⟨o, target, mirrors, -⟩
  · refine Or.inr ⟨Or.inl target, fun e => ⟨r.generatedPath e.path, ?_⟩⟩
    simp [entryDestination, output, target, append]
  · exact Or.inl ⟨o, target, fun e => by simp [entryDestination, output, target, append]⟩
  · refine Or.inr ⟨Or.inr mirrors, fun e => ⟨(Path.absolute fs.cwdPath o).join e.relative, ?_⟩⟩
    simp [entryDestination, output, target, mirrors]

end Run

end Graft
