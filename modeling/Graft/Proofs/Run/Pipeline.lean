import Graft.Proofs.Relocation.Packages
import Graft.Proofs.Run.OutOfPlace
import Mathlib.Data.List.Nodup

/-!
# Mirrored runs as pipelines

A mirrored run treats each unit by itself: the file is read and parsed, the unit is expanded, its
references are relocated, and it is printed. If the run succeeds, this is what it leaves behind.
Up to the first unit at which a handler stops, every unit whose pipeline comes to a text has this
text at its mirrored path. A unit whose pipeline fails, or has nothing to emit, leaves its mirrored
path as it was, and all other files are as they were. So a unit depends on the others only through
the table of relocations, which is made from the packages before the first unit is read.

This needs handlers that keep no state, and a run that goes on after a failure.
-/

namespace Graft

open FileSystem (Keeps)

namespace Run

variable {σ : Type} {r : Run} {p : Pipeline σ} {handlers : σ} {fs : FileSystem} {plan : Plan}
variable {e : UnitEntry} {a : Answer} {s s' : State σ} {output : Path} {summary : Summary}
variable {registry : Registry (Handler σ)} {budget changed : Nat} {text : String}
variable {table : Relocations} {o : Expansion.Outcome σ} {after : SourceUnit}

/-! ### One unit by itself -/

/-- The expansion of the unit in a file, by handlers in a state. -/
def Expands (r : Run) (p : Pipeline σ) (handlers : σ) (fs : FileSystem) (e : UnitEntry)
    (o : Expansion.Outcome σ) : Prop :=
  ∃ content u, fs.readText e.path = .ok content ∧ r.frontend.parse e.path content = .ok u ∧
    Expansion.expand p.registry false p.budget ⟨handlers, [], 0⟩ u = some o

/-- A handler stops at the unit in a file. -/
def StopsAt (r : Run) (p : Pipeline σ) (handlers : σ) (fs : FileSystem) (e : UnitEntry) : Prop :=
  ∃ o, r.Expands p handlers fs e o ∧ o.ending = .stopped

/-- The pipeline of the unit in a file comes to a text: the unit can be read and parsed, no handler
fails, its references can be relocated, and there is something to emit. -/
def Emits (r : Run) (p : Pipeline σ) (handlers : σ) (fs : FileSystem) (e : UnitEntry)
    (text : String) : Prop :=
  ∃ o table changed after, r.Expands p handlers fs e o ∧ (∀ f, o.ending ≠ .failed f) ∧
    (o.applied ≠ 0 ∨ r.settings.skipUnchanged = false) ∧
    p.relocations = some table ∧ table.apply o.unit = (.ok changed, after) ∧
    text = r.frontend.print after ∧ text ≠ ""

/-- What a pipeline comes to depends on the files through the text of the unit alone. -/
theorem emits_congr {fs' : FileSystem} (same : fs'.readText e.path = fs.readText e.path) :
    r.Emits p handlers fs' e text ↔ r.Emits p handlers fs e text := by
  unfold Emits Expands
  rw [same]

/-- An answer is an error of loading, or it comes from an expansion. -/
theorem answerAt_cases (mirrors : r.settings.append = false)
    (known : r.answerAt p handlers fs e = some a) :
    ((∃ err, a.result = .error err) ∧ ∀ o, ¬ r.Expands p handlers fs e o) ∨
      ∃ o, a.result = r.textOf p o ∧ ∀ o', r.Expands p handlers fs e o' ↔ o' = o := by
  unfold answerAt answer at known
  cases loaded : fs.loadUnit r.frontend e.path with
  | error err =>
      rw [loaded] at known
      cases known
      refine Or.inl ⟨⟨err, rfl⟩, ?_⟩
      rintro o ⟨content, u, read, parsed, -⟩
      rw [loadUnit_eq_ok_iff.mpr ⟨content, read, parsed⟩] at loaded
      cases loaded
  | ok u =>
      obtain ⟨content, read, parsed⟩ := loadUnit_eq_ok_iff.mp loaded
      simp only [loaded, generate, mirrors, Option.map_map, Option.map_eq_some_iff] at known
      obtain ⟨o, expanded, rfl⟩ := known
      refine Or.inr ⟨o, rfl, fun o' => ⟨?_, ?_⟩⟩
      · rintro ⟨content', u', read', parsed', expanded'⟩
        obtain rfl : content' = content := Except.ok.inj (read'.symm.trans read)
        obtain rfl : u' = u := Except.ok.inj (parsed'.symm.trans parsed)
        exact Option.some.inj (expanded'.symm.trans expanded)
      · rintro rfl
        exact ⟨content, u, read, parsed, expanded⟩

theorem textOf_of_failed {f : PassFailure} (failed : o.ending = .failed f) :
    r.textOf p o = .error (.handlerFailed o.unit.path f) := by
  rw [textOf, failed]

theorem textOf_of_relocated (mirrors : r.settings.append = false)
    (relocates : p.relocations = some table)
    (relocated : table.apply o.unit = (.ok changed, after))
    (succeeded : ∀ f, o.ending ≠ .failed f) :
    r.textOf p o = .ok ⟨if o.applied = 0 ∧ r.settings.skipUnchanged then none
      else some (r.frontend.print after), decide (o.ending = .stopped), o.applied⟩ := by
  have printed : r.printRelocated p.relocations o.unit = .ok (r.frontend.print after) := by
    simp only [printRelocated, relocates, relocated]
  have emitted : r.emitted? o =
      if o.applied = 0 ∧ r.settings.skipUnchanged then none else some o.unit := by
    rw [emitted?, mirrors, if_neg Bool.false_ne_true]
  rw [textOf, emitted]
  by_cases unchanged : o.applied = 0 ∧ r.settings.skipUnchanged
  · rw [if_pos unchanged, if_pos unchanged]
    split
    · next f failed => exact absurd failed (succeeded f)
    · rfl
  · rw [if_neg unchanged, if_neg unchanged]
    split
    · next f failed => exact absurd failed (succeeded f)
    · simp only [printed, Except.map]

section Relocating

variable (mirrors : r.settings.append = false) (relocates : p.relocations = some table)
variable (accepts : ∀ u, ∃ changed after, table.apply u = (.ok changed, after))
variable (known : r.answerAt p handlers fs e = some a)

include mirrors relocates accepts known

/-- An answer has a text to write if the pipeline emits it. -/
theorem mem_texts_iff : text ∈ a.texts ↔ r.Emits p handlers fs e text := by
  rcases answerAt_cases mirrors known with ⟨⟨err, failed⟩, none⟩ | ⟨o, result, only⟩
  · have nothing : ¬ r.Emits p handlers fs e text := fun ⟨o, _, _, _, expands, _⟩ => none o expands
    simp [Answer.texts, failed, nothing]
  · obtain ⟨changed, after, relocated⟩ := accepts o.unit
    have emits : r.Emits p handlers fs e text ↔ (∀ f, o.ending ≠ .failed f) ∧
        (o.applied ≠ 0 ∨ r.settings.skipUnchanged = false) ∧
        text = r.frontend.print after ∧ text ≠ "" := by
      simp [Emits, only, relocates, relocated]
    rw [emits, Answer.texts, result]
    by_cases failed : ∃ f, o.ending = .failed f
    · obtain ⟨f, failed⟩ := failed
      simp [textOf_of_failed failed, failed]
    · have succeeded := not_exists.mp failed
      rw [textOf_of_relocated mirrors relocates relocated succeeded]
      by_cases unchanged : o.applied = 0 ∧ r.settings.skipUnchanged
      · simp [unchanged]
      · have wanted : o.applied ≠ 0 ∨ r.settings.skipUnchanged = false := by
          simpa [Decidable.imp_iff_not_or] using unchanged
        simp only [if_neg unchanged, Option.elim_some, Sink.State.mem_nonempty_iff, wanted,
          true_and]
        exact ⟨fun same => ⟨succeeded, same⟩, fun emits => emits.2⟩

/-- An answer stops the run if a handler stops at the unit. -/
theorem stops_iff : a.stops = true ↔ r.StopsAt p handlers fs e := by
  rcases answerAt_cases mirrors known with ⟨⟨err, failed⟩, none⟩ | ⟨o, result, only⟩
  · have nothing : ¬ r.StopsAt p handlers fs e := fun ⟨o, expands, _⟩ => none o expands
    simp [Answer.stops, failed, nothing]
  · obtain ⟨changed, after, relocated⟩ := accepts o.unit
    have stops : r.StopsAt p handlers fs e ↔ o.ending = .stopped := by simp [StopsAt, only]
    rw [stops, Answer.stops, result]
    by_cases failed : ∃ f, o.ending = .failed f
    · obtain ⟨f, failed⟩ := failed
      simp [textOf_of_failed failed, failed]
    · rw [textOf_of_relocated mirrors relocates relocated (not_exists.mp failed)]
      simp

end Relocating

/-! ### The units that are reached -/

/-- The first elements of a list, up to one that halts. -/
inductive UpTo {α : Type} (halts : α → Prop) : List α → List α → Prop
  | done : UpTo halts [] []
  | last {x : α} {rest : List α} (ends : halts x) : UpTo halts (x :: rest) [x]
  | next {x : α} {rest front : List α} (goes : ¬ halts x) (more : UpTo halts rest front) :
      UpTo halts (x :: rest) (x :: front)

/-- A course goes up to the first unit that ends the run. -/
theorem Course.upTo {known : UnitEntry → Option Answer} {ends : Answer → Bool}
    {halts : UnitEntry → Prop} {entries : List UnitEntry} {steps : List (UnitEntry × Answer)}
    (course : Course known ends entries steps)
    (same : ∀ e a, known e = some a → (ends a = true ↔ halts e)) :
    UpTo halts entries (steps.map (·.1)) := by
  induction course with
  | done => exact .done
  | last found _ ended => exact .last ((same _ _ found).mp ended)
  | next found _ goes _ ih =>
      refine .next (fun halted => ?_) ih
      rw [(same _ _ found).mpr halted] at goes
      cases goes

/-! ### Mirrored runs -/

/-- A run that mirrors the units of a directory to an output that is not at or above it. -/
structure MirrorsTo (r : Run) (fs : FileSystem) (output : Path) : Prop where
  mirrors : r.settings.append = false
  target : r.output = some output
  direct : ".." ∉ r.source.pieces
  noUp : ".." ∉ output.pieces
  outside : (Path.absolute fs.cwdPath r.source).startsWith (Path.absolute fs.cwdPath output) = false

theorem MirrorsTo.outOfPlace (mirrored : r.MirrorsTo fs output) : r.OutOfPlace fs := by
  simp only [OutOfPlace, mirrored.target, mirrored.mirrors]
  exact ⟨mirrored.noUp, mirrored.outside⟩

theorem MirrorsTo.outputRoot (mirrored : r.MirrorsTo fs output) (planned : r.plan fs = .ok plan) :
    plan.outputRoot = some (Path.absolute fs.cwdPath output) := by
  obtain ⟨-, root, -, -⟩ := plan_eq_ok planned
  rw [root, mirrored.target, Option.map_some]

theorem MirrorsTo.entryDestination (mirrored : r.MirrorsTo fs output)
    (planned : r.plan fs = .ok plan) (e : UnitEntry) :
    r.entryDestination plan.outputRoot e =
      .file ((Path.absolute fs.cwdPath output).join e.relative) := by
  simp only [Run.entryDestination, mirrored.outputRoot planned, mirrored.mirrors]

/-- A mirrored path leads straight to the names of the output and those of the unit. -/
theorem MirrorsTo.direct_join (mirrored : r.MirrorsTo fs output) (wellFormed : fs.WellFormed)
    (planned : r.plan fs = .ok plan) (member : e ∈ plan.entries) :
    ((Path.absolute fs.cwdPath output).join e.relative).Direct ∧
      ((Path.absolute fs.cwdPath output).join e.relative).names =
        (Path.absolute fs.cwdPath output).names ++ e.relative.names := by
  obtain ⟨_, _, _, names, -, -, -, finds⟩ := finds_of_plan wellFormed planned member
  obtain ⟨absolute, extended⟩ := names_mirrored finds (Path.absolute fs.cwdPath output)
  have relative : e.relative.names = names := by
    rw [finds.relative_names, Path.names_empty, List.nil_append]
  refine ⟨⟨absolute.trans (fs.isAbsolute_absolute output), ?_⟩, relative ▸ extended⟩
  exact noUp_of_finds finds (noUp_absolute wellFormed.cwd mirrored.noUp) extended

/-- No unit stands below another one. -/
theorem eq_of_names_prefix {e' : UnitEntry} (wellFormed : fs.WellFormed)
    (planned : r.plan fs = .ok plan) (member : e ∈ plan.entries) (member' : e' ∈ plan.entries)
    (initial : e.relative.names <+: e'.relative.names) : e = e' := by
  obtain ⟨-, -, -, discovered⟩ := plan_eq_ok planned
  have distinct := Survey.nodup_discover wellFormed.root discovered
  refine List.inj_on_of_nodup_map distinct member member' ?_
  obtain ⟨_, place, root, names, -, resolved, there, finds⟩ :=
    finds_of_plan wellFormed planned member
  obtain ⟨_, _, _, names', -, resolved', there', finds'⟩ :=
    finds_of_plan wellFormed planned member'
  obtain rfl := Except.ok.inj (resolved.symm.trans resolved')
  obtain rfl := Option.some.inj (there.symm.trans there')
  rw [finds.relative_names, finds'.relative_names] at initial ⊢
  obtain ⟨rest, rfl⟩ := (List.prefix_append_right_inj _).mp initial
  obtain ⟨content, file⟩ := finds.file
  obtain ⟨content', file'⟩ := finds'.file
  rw [Entry.at?_append, file, Option.bind_some] at file'
  cases rest with
  | nil => rw [List.append_nil]
  | cons next rest => cases file'

/-! ### The table of relocations -/

/-- The root of an output that is not above the source has a name. -/
theorem fileName?_of_not_startsWith {sourceRoot outputRoot : Path}
    (rooted : sourceRoot.isAbsolute = true) (rooted' : outputRoot.isAbsolute = true)
    (noUp : ".." ∉ outputRoot.pieces) (outside : sourceRoot.startsWith outputRoot = false) :
    ∃ name, outputRoot.fileName? = some name := by
  rw [← Bool.not_eq_true, Path.startsWith_iff rooted rooted'] at outside
  have given : outputRoot.names ≠ [] := fun none => outside (none ▸ List.nil_prefix)
  have last := List.getLast?_eq_some_getLast given
  refine ⟨_, Path.fileName?_eq_some_iff.mpr ⟨last, ?_⟩⟩
  intro up
  exact noUp (Path.up_mem_names.mp (up ▸ List.getLast_mem given))

/-- A mirrored run has a table of relocations, which refuses no reference of any unit. -/
theorem MirrorsTo.relocations (mirrored : r.MirrorsTo fs output) (wellFormed : fs.WellFormed)
    (planned : r.plan fs = .ok plan) :
    ∃ table, table = Relocations.ofIndex (plan.survey.packageIndex plan.entries)
        (Path.absolute fs.cwdPath r.source) (Path.absolute fs.cwdPath output) ∧
      plan.relocations = some table ∧
      ∀ u, ∃ changed after, table.apply u = (.ok changed, after) := by
  obtain ⟨sourceRoot, excluded, source, -, -, -, survey, discovered, relocations⟩ :=
    plan_eq_ok_iff.mp planned
  obtain rfl := absolute_eq_ok source
  have rooted := fs.isAbsolute_absolute r.source
  have rooted' := fs.isAbsolute_absolute output
  have outside := mirrored.outside
  have located : plan.survey.root = Path.absolute fs.cwdPath r.source := by
    rw [survey, root_survey]
  have other : (Path.absolute fs.cwdPath output).same (Path.absolute fs.cwdPath r.source) =
      false := by
    rw [← Bool.not_eq_true, Path.startsWith_iff rooted rooted'] at outside
    rw [← Bool.not_eq_true, Path.same_iff rooted' rooted]
    exact fun same => outside (same ▸ List.prefix_refl _)
  obtain ⟨name, last⟩ := fileName?_of_not_startsWith rooted rooted'
    (noUp_absolute wellFormed.cwd mirrored.noUp) outside
  have ordinary : ∀ e ∈ plan.entries, e.Ordinary := fun e member =>
    Survey.ordinary_of_mem_discover wellFormed.root discovered member
  have accepts := Relocations.effect_ne_refuse (s := plan.survey) ordinary last
  rw [Relocations.ofSurvey, located] at accepts
  refine ⟨_, rfl, ?_, fun u => ?_⟩
  · rw [relocations, mirrored.outputRoot planned]
    simp [relocationRoot?, mirrored.mirrors, other]
  · exact ⟨_, _, Relocations.apply_of_accepts accepts u⟩

/-! ### Runs -/

section Writing

variable {steps : List (UnitEntry × Answer)} {out out' : Sink.State} {w : Destination × String}
variable {place : List String} {content : Content}
variable (mirrored : r.MirrorsTo out.files output) (wellFormed : out.files.WellFormed)
variable (planned : r.plan out.files = .ok plan) (relocates : p.relocations = some table)
variable (accepts : ∀ u, ∃ changed after, table.apply u = (.ok changed, after))
variable (course : Course (r.answerAt p handlers out.files) r.ends plan.entries steps)
variable (writes : out.Writes (r.writesOf plan.outputRoot steps) out')

include mirrored planned relocates accepts course

/-- What a course writes is what the pipelines of its units come to. -/
theorem mem_writesOf_iff_emits : w ∈ r.writesOf plan.outputRoot steps ↔
    ∃ e ∈ steps.map (·.1),
      w.1 = .file ((Path.absolute out.files.cwdPath output).join e.relative) ∧
        r.Emits p handlers out.files e w.2 := by
  simp only [mem_writesOf, mirrored.entryDestination planned]
  constructor
  · rintro ⟨step, member, path, inside⟩
    refine ⟨step.1, List.mem_map_of_mem member, path, ?_⟩
    exact (mem_texts_iff mirrored.mirrors relocates accepts (course.known step member)).mp inside
  · rintro ⟨e, member, path, emits⟩
    obtain ⟨step, inside, rfl⟩ := List.mem_map.mp member
    refine ⟨step, inside, path, ?_⟩
    exact (mem_texts_iff mirrored.mirrors relocates accepts (course.known step inside)).mpr emits

include wellFormed writes

/-- A text that a pipeline comes to is found at the mirrored path. -/
theorem readText_of_emits {entries : List (String × Entry)}
    (found : out.files.entry r.source = .ok (.dir entries)) (member : e ∈ steps.map (·.1))
    (emits : r.Emits p handlers out.files e text) :
    out'.files.readText ((Path.absolute out.files.cwdPath output).join e.relative) =
      .ok text := by
  have written := fun w =>
    mem_writesOf_iff_emits (w := w) mirrored planned relocates accepts course
  have apart := apart_of_own mirrored.outOfPlace mirrored.direct wellFormed found planned
    (Or.inr mirrored.mirrors)
  have files : ∀ w ∈ r.writesOf plan.outputRoot steps, ∃ q, w.1 = .file q := by
    intro w inside
    obtain ⟨e, -, path, -⟩ := (written w).mp inside
    exact ⟨_, path⟩
  obtain ⟨place, ready, there⟩ := writes.ready_of_files files
    (fun w inside => given_of_mem_writesOf inside) (apart_writesOf course apart)
    ((written (_, text)).mpr ⟨e, member, rfl, emits⟩)
  obtain ⟨direct, -⟩ := mirrored.direct_join wellFormed planned (course.initial.subset member)
  exact FileSystem.readText_of_resolve
    (FileSystem.resolve_of_mayLeadTo ready.mayLeadTo direct.noUp there) there

/-- What stands at the mirrored path of a unit that is not written stays as it was. -/
theorem at?_of_silent (member : e ∈ plan.entries)
    (silent : e ∈ steps.map (·.1) → ∀ text, ¬ r.Emits p handlers out.files e text) :
    out'.files.root.at? ((Path.absolute out.files.cwdPath output).names ++ e.relative.names) =
      out.files.root.at? ((Path.absolute out.files.cwdPath output).names ++ e.relative.names) := by
  refine writes.at?_of_direct fun w inside => ?_
  obtain ⟨e', member', path, emits⟩ :=
    (mem_writesOf_iff_emits mirrored planned relocates accepts course).mp inside
  have inside' := course.initial.subset member'
  obtain ⟨direct, names⟩ := mirrored.direct_join wellFormed planned inside'
  refine ⟨_, path, direct, fun lower => ?_⟩
  rw [names] at lower
  obtain rfl := eq_of_names_prefix wellFormed planned member inside'
    ((List.prefix_append_right_inj _).mp lower)
  exact silent member' _ emits

/-- The same files stand at all places but those of units that are written. -/
theorem file_iff_of_elsewhere (elsewhere : ∀ e ∈ steps.map (·.1), ∀ text,
      r.Emits p handlers out.files e text →
        place ≠ (Path.absolute out.files.cwdPath output).names ++ e.relative.names) :
    out'.files.root.at? place = some (.file content) ↔
      out.files.root.at? place = some (.file content) := by
  refine writes.changes.file_iff ?_
  rintro ⟨w, inside, q, path, leads⟩
  obtain ⟨e, member, path', emits⟩ :=
    (mem_writesOf_iff_emits mirrored planned relocates accepts course).mp inside
  rw [path'] at path
  cases path
  obtain ⟨direct, names⟩ := mirrored.direct_join wellFormed planned (course.initial.subset member)
  exact elsewhere e member _ emits
    ((place_of_absolute direct.rooted direct.noUp leads).trans names)

end Writing

/-- **Mirrored runs as pipelines.** A mirrored run that succeeds goes through the units in the
order of their paths, up to the first at which a handler stops. Each of them that the pipeline
makes a text of has this text at its mirrored path. What stands at the mirrored path of another
unit stays as it was, and so does every file at another place. The text of a unit depends on the
files of the others through the table of relocations alone. -/
theorem mirrored_run (stateless : registry.Stateless) (wellFormed : s.out.files.WellFormed)
    (isDir : s.out.files.isDir r.source = true) (mirrored : r.MirrorsTo s.out.files output)
    (goesOn : r.settings.failFast = false)
    (ran : r.run registry budget s = some (.ok summary, s')) :
    let fs := s.out.files
    let sourceRoot := Path.absolute fs.cwdPath r.source
    let outputRoot := Path.absolute fs.cwdPath output
    ∃ plan reached, r.plan fs = .ok plan ∧
      let table := Relocations.ofIndex (plan.survey.packageIndex plan.entries) sourceRoot outputRoot
      let emits := r.Emits ⟨registry, budget, some table⟩ s.handlers fs
      let place (e : UnitEntry) := outputRoot.names ++ e.relative.names
      (plan.entries.Pairwise fun e e' => e.path.precedes e'.path = true) ∧
      UpTo (r.StopsAt ⟨registry, budget, some table⟩ s.handlers fs) plan.entries reached ∧
      summary.files.map (·.path) = reached.map (·.path) ∧
      (∀ e ∈ reached, ∀ text, emits e text →
        s'.out.files.readText (outputRoot.join e.relative) = .ok text) ∧
      (∀ e ∈ plan.entries, (e ∈ reached → ∀ text, ¬ emits e text) →
        s'.out.files.root.at? (place e) = fs.root.at? (place e)) ∧
      (∀ elsewhere content, (∀ e ∈ reached, ∀ text, emits e text → elsewhere ≠ place e) →
        (s'.out.files.root.at? elsewhere = some (.file content) ↔
          fs.root.at? elsewhere = some (.file content))) ∧
      ∀ fs' : FileSystem, ∀ e, fs'.readText e.path = fs.readText e.path → ∀ text,
        (r.Emits ⟨registry, budget, some table⟩ s.handlers fs' e text ↔ emits e text) := by
  intro fs sourceRoot outputRoot
  obtain ⟨start, entries, resolved, there⟩ := FileSystem.isDir_iff.mp isDir
  have found := FileSystem.entry_eq_ok_iff.mpr ⟨start, resolved, there⟩
  rw [run_of_isDir isDir] at ran
  obtain ⟨plan, planned⟩ := plan_of_runDirectory ran
  obtain ⟨-, -, -, discovered⟩ := plan_eq_ok planned
  obtain ⟨table, rfl, relocates, accepts⟩ := mirrored.relocations wellFormed planned
  have apart := unitsApart_of_outOfPlace mirrored.outOfPlace mirrored.direct wellFormed found
    planned
  obtain ⟨steps, course, rfl, writes⟩ := (runDirectory_eq_some_iff stateless wellFormed planned
    apart (Keeps.refl _ _) planned s.handlers).mp ⟨s'.handlers, ran⟩
  rw [relocates] at course
  refine ⟨plan, steps.map (·.1), planned, Survey.sorted_discover wellFormed.root discovered,
    ?_, ?_, ?_, ?_, ?_, fun fs' e same text => emits_congr same⟩
  · refine course.upTo fun e a known => ?_
    rw [← stops_iff mirrored.mirrors rfl accepts known]
    simp [ends, goesOn]
  · rw [summaryOf, List.map_map, List.map_map]
    exact List.map_congr_left fun step _ => step.2.path_report _ _
  · intro e member text emits
    exact readText_of_emits mirrored wellFormed planned rfl accepts course writes found member emits
  · intro e member silent
    exact at?_of_silent mirrored wellFormed planned rfl accepts course writes member silent
  · intro elsewhere content others
    exact file_iff_of_elsewhere mirrored wellFormed planned rfl accepts course writes others

/-- The unit of `unitFiles`. -/
def unitEntry : UnitEntry := ⟨⟨"/src/a.rmc"⟩, ⟨"a.rmc"⟩⟩

theorem mirrored_run_unitFiles :
    ∃ summary s' table, (mirrorRun "src" "out").run addingRegistry 9 unitStart =
        some (.ok summary, s') ∧
      summary.files.map (·.path) = [⟨"/src/a.rmc"⟩] ∧
      (mirrorRun "src" "out").Emits ⟨addingRegistry, 9, some table⟩ () unitFiles unitEntry
        ";; macro:use m\n(fn A)\n\n(fn B)\n" := by
  have ended : ((mirrorRun "src" "out").run addingRegistry 9 unitStart).bind
      (fun done => done.1.toOption.map fun summary => (summary.files.map (·.path),
        (done.2.out.files.readText ⟨"/out/a.rmc"⟩).toOption,
        (done.2.out.files.root.at? ["out", "a.rmc"]).isSome)) =
          some ([⟨"/src/a.rmc"⟩], some ";; macro:use m\n(fn A)\n\n(fn B)\n", true) := by
    decide +kernel
  have known : ((mirrorRun "src" "out").plan unitFiles).toOption.map (·.entries) =
      some [unitEntry] := by
    decide +kernel
  obtain ⟨⟨result, s'⟩, ran, ended⟩ := Option.bind_eq_some_iff.mp ended
  obtain ⟨summary, success, ended⟩ := Option.map_eq_some_iff.mp ended
  simp only [Prod.mk.injEq] at ended
  obtain ⟨paths, written, there⟩ := ended
  cases result with
  | error e => cases success
  | ok summary' =>
      obtain rfl : summary' = summary := Option.some.inj success
      have stateless : addingRegistry.Stateless := fun _ _ _ _ _ _ _ => rfl
      have mirrored : (mirrorRun "src" "out").MirrorsTo unitFiles ⟨"out"⟩ :=
        ⟨rfl, rfl, by decide, by decide, by decide +kernel⟩
      obtain ⟨plan, reached, planned, -, upTo, -, texts, silent, -⟩ := mirrored_run stateless
        ⟨by decide +kernel, by decide⟩ (by decide +kernel) mirrored rfl ran
      have planned : (mirrorRun "src" "out").plan unitFiles = .ok plan := planned
      simp only [planned, Except.toOption, Option.map_some, Option.some.injEq] at known
      generalize Relocations.ofIndex (plan.survey.packageIndex plan.entries) _ _ = table at *
      have inside : unitEntry ∈ plan.entries := by simp [known]
      have member : unitEntry ∈ reached := by
        rw [known] at upTo
        cases upTo with
        | last => exact List.mem_cons_self
        | next => exact List.mem_cons_self
      -- the file is new, so the pipeline has come to a text, and it is the one found there
      have emits : ∃ text, (mirrorRun "src" "out").Emits ⟨addingRegistry, 9, some table⟩ ()
          unitFiles unitEntry text := by
        by_contra nothing
        have free : s'.out.files.root.at? ["out", "a.rmc"] = none :=
          silent unitEntry inside fun _ => not_exists.mp nothing
        simp [free] at there
      obtain ⟨text, emits⟩ := emits
      have found : s'.out.files.readText ⟨"/out/a.rmc"⟩ = .ok text :=
        texts unitEntry member text emits
      rw [found] at written
      obtain rfl := Option.some.inj written
      exact ⟨summary', s', table, ran, paths, emits⟩

end Run

end Graft
