import Graft.Proofs.Discovery.Units
import Graft.Proofs.FileSystem.Ways

/-!
# Surveys of changed files

A survey finds the same units in the same order after new files were made and others got another
content, as long as it looks for none of the new ones: they are passed over, or they are files that
it does not take. New directories do not matter either, unless their paths are so long that the
system refuses to list them.

The units that a survey finds have different names and stand at different places, and they come in
the order of their paths.
-/

namespace Graft

/-! ### Names of changed trees -/

namespace Entry

variable {root e : Entry} {entries : List (String × Entry)} {name : String}

theorem mem_names_setNamed {other : String}
    (member : other ∈ (setNamed name e entries).map (·.1)) :
    other = name ∨ other ∈ entries.map (·.1) := by
  induction entries with
  | nil => simpa [setNamed] using member
  | cons head rest ih =>
      obtain ⟨first, old⟩ := head
      rw [setNamed] at member
      split at member
      · exact Or.inr (by simpa using member)
      · rw [List.map_cons, List.mem_cons] at member
        rcases member with rfl | later
        · exact Or.inr List.mem_cons_self
        · exact (ih later).imp_right (List.mem_cons_of_mem _)

theorem nodup_setNamed (distinct : (entries.map (·.1)).Nodup) :
    ((setNamed name e entries).map (·.1)).Nodup := by
  induction entries with
  | nil => simp [setNamed]
  | cons head rest ih =>
      obtain ⟨first, old⟩ := head
      rw [List.map_cons, List.nodup_cons] at distinct
      rw [setNamed]
      split
      · exact List.nodup_cons.mpr distinct
      · next other =>
          refine List.nodup_cons.mpr ⟨fun inside => ?_, ih distinct.2⟩
          rcases mem_names_setNamed inside with rfl | old
          · simp at other
          · exact distinct.1 old

namespace Unambiguous

theorem setNamed (unambiguous : (Entry.dir entries).Unambiguous) (new : e.Unambiguous)
    (name : String) : (Entry.dir (setNamed name e entries)).Unambiguous := by
  intro place es there
  cases place with
  | nil =>
      rw [at?_nil, Option.some.injEq, Entry.dir.injEq] at there
      rw [← there]
      exact nodup_setNamed (unambiguous [] entries (at?_nil _))
  | cons first place =>
      rw [at?_dir_cons] at there
      by_cases here : first = name
      · rw [here, lookup_setNamed_self, Option.bind_some] at there
        exact new place es there
      · rw [lookup_setNamed_of_ne here] at there
        exact unambiguous (first :: place) es there

theorem put (unambiguous : root.Unambiguous) (new : e.Unambiguous) (place : List String) :
    (root.put place e).Unambiguous := by
  induction place generalizing root with
  | nil =>
      have whole : root.put [] e = e := by cases root <;> rfl
      rwa [whole]
  | cons first place ih =>
      cases root with
      | file content => exact unambiguous
      | dir entries =>
          cases found : entries.lookup first with
          | some old =>
              have there : (Entry.dir entries).at? [first] = some old := by simp [found]
              have whole : (Entry.dir entries).put (first :: place) e =
                  .dir (Entry.setNamed first (old.put place e) entries) := by
                simp [Entry.put, found]
              rw [whole]
              exact unambiguous.setNamed (ih (unambiguous.lower there)) first
          | none =>
              cases place with
              | nil =>
                  have whole : (Entry.dir entries).put [first] e =
                      .dir (Entry.setNamed first e entries) := by
                    simp [Entry.put, found]
                  rw [whole]
                  exact unambiguous.setNamed new first
              | cons second more =>
                  have whole : (Entry.dir entries).put (first :: second :: more) e =
                      .dir entries := by
                    simp [Entry.put, found]
                  rwa [whole]

theorem emptyDir : Entry.emptyDir.Unambiguous := by
  intro place entries there
  cases place with
  | nil =>
      cases there
      exact List.nodup_nil
  | cons name place => cases there

theorem file (content : Content) : (Entry.file content).Unambiguous := by
  intro place entries there
  cases place <;> cases there

end Unambiguous

end Entry

namespace FileSystem

variable {fs fs' : FileSystem} {touched : List String → Prop} {place : List String} {root : Entry}

theorem Changes.unambiguous (changes : Changes touched fs fs')
    (unambiguous : fs.root.Unambiguous) : fs'.root.Unambiguous := by
  induction changes with
  | refl => exact unambiguous
  | makeDir changes here free ih => exact ih.put .emptyDir _
  | setFile content changes here fits inside ih => exact ih.put (.file content) _

/-- Where something stands that is a directory afterwards, it was one before. -/
theorem Keeps.isDirAt (kept : Keeps touched fs fs') (there : fs.root.at? place = some root)
    (isDir : IsDirAt fs' place) : IsDirAt fs place := by
  obtain ⟨entries, there'⟩ := isDir
  cases root with
  | dir entries => exact ⟨entries, there⟩
  | file content =>
      obtain ⟨content', there'', -⟩ := kept.file place content there
      rw [there''] at there'
      cases there'

/-- Where something stands that is a file afterwards, it was one before. -/
theorem Keeps.isFileAt (kept : Keeps touched fs fs') (there : fs.root.at? place = some root)
    {content : Content} (there' : fs'.root.at? place = some (.file content)) :
    ∃ content, fs.root.at? place = some (.file content) := by
  cases root with
  | file content => exact ⟨content, there⟩
  | dir entries =>
      obtain ⟨entries', there''⟩ := kept.dir place entries there
      rw [there''] at there'
      cases there'

end FileSystem

namespace Survey

open FileSystem (Changes IsDirAt checkText)

variable {s : Survey} {fs fs' : FileSystem} {touched : List String → Prop} {path relative : Path}
variable {root root' : Entry} {place rel names : List String} {units : List UnitEntry}

/-! ### Changes of the files -/

/-- Names below the root of a survey at which it looks for no unit. -/
def Hides (s : Survey) (rel : List String) : Prop :=
  ¬ s.Spares rel ∨ s.accepts (⟨s.root, rel⟩ : EntryPath String) = false

theorem hides_of_isSkipped {up : List String} (initial : up <+: rel)
    (skipped : s.isSkipped (⟨s.root, up⟩ : EntryPath String) = true) : s.Hides rel := by
  obtain ⟨q, member, same⟩ := List.any_eq_true.mp skipped
  exact Or.inl fun spares => spares up initial q member (of_decide_eq_true same)

/-- What a survey seeks is not hidden. -/
theorem not_hides_of_seeks {l : Listing String} {p : EntryPath String} (seeks : s.Seeks l p) :
    ¬ s.Hides p.names := by
  obtain ⟨base, names⟩ := p
  obtain ⟨rfl, -, handled, ungenerated, included, spared⟩ := seeks
  rintro (skipped | refused)
  · exact skipped spared
  · rw [accepts_iff.mpr ⟨handled, ungenerated, included⟩] at refused
    cases refused

section Changed

variable (unambiguous : fs.root.Unambiguous) (changes : Changes touched fs fs')
variable (there : fs.root.at? place = some root) (there' : fs'.root.at? place = some root')

include unambiguous changes there there'

/-- A survey seeks what it sought before, if all that was touched is hidden. -/
theorem seeks_changes_iff (hidden : ∀ rel, rel ≠ [] → touched (place ++ rel) → s.Hides rel)
    (p : EntryPath String) :
    s.Seeks (root'.listing s.root) p ↔ s.Seeks (root.listing s.root) p := by
  have same : ¬ s.Hides p.names → ((∃ content, root'.at? p.names = some (.file content)) ↔
      ∃ content, root.at? p.names = some (.file content)) := by
    intro visible
    have spelled : fs.root.at? (place ++ p.names) = root.at? p.names := by
      rw [Entry.at?_append, there, Option.bind_some]
    have spelled' : fs'.root.at? (place ++ p.names) = root'.at? p.names := by
      rw [Entry.at?_append, there', Option.bind_some]
    rw [← spelled, ← spelled']
    constructor
    · rintro ⟨content, file⟩
      by_cases none : p.names = []
      · rw [none, List.append_nil] at file ⊢
        exact changes.keeps.isFileAt there file
      · exact ⟨content, changes.file_of_file (fun inside => visible (hidden _ none inside)) file⟩
    · rintro ⟨content, file⟩
      obtain ⟨content', file', -⟩ := changes.keeps.file _ content file
      exact ⟨content', file'⟩
  have before := Entry.reaches_file_iff (unambiguous.lower there) s.root p.names
  have after := Entry.reaches_file_iff ((changes.unambiguous unambiguous).lower there') s.root
    p.names
  constructor
  · intro seeks
    refine { seeks with file := before.mpr ?_ }
    obtain ⟨file, way⟩ := after.mp seeks.file
    exact ⟨(same (not_hides_of_seeks seeks)).mp file, way⟩
  · intro seeks
    refine { seeks with file := after.mpr ?_ }
    obtain ⟨file, way⟩ := before.mp seeks.file
    exact ⟨(same (not_hides_of_seeks seeks)).mpr file, way⟩

/-- No directory refuses a survey that did not do so before, if the system takes the paths of the
new ones. -/
theorem refuses_of_changes
    (short : ∀ rel, IsDirAt fs' (place ++ rel) →
      IsDirAt fs (place ++ rel) ∨ checkText (s.root.below rel) = .ok ())
    {f : WalkFault String} (refuses : s.Refuses (root'.listing s.root) f) :
    s.Refuses (root.listing s.root) f := by
  obtain ⟨⟨entries, dir⟩, long, way⟩ :=
    (Entry.reaches_closed_iff ((changes.unambiguous unambiguous).lower there')).mp refuses.closed
  have isDir : IsDirAt fs' (place ++ f.path.names) :=
    ⟨entries, by rw [Entry.at?_append, there', Option.bind_some, dir]⟩
  rcases short f.path.names isDir with ⟨old, dir'⟩ | fits
  · rw [Entry.at?_append, there, Option.bind_some] at dir'
    exact { refuses with
      closed := (Entry.reaches_closed_iff (unambiguous.lower there)).mpr ⟨⟨old, dir'⟩, long, way⟩ }
  · rw [fits] at long
    cases long

end Changed

/-- **Surveys of changed files.** -/
theorem discover_changes (named : fs.root.wellNamed = true) (changes : Changes touched fs fs')
    (resolved : fs.resolve s.root = .ok place)
    (hidden : ∀ rel, rel ≠ [] → touched (place ++ rel) → s.Hides rel)
    (short : ∀ rel, rel ≠ [] → IsDirAt fs' (place ++ rel) →
      IsDirAt fs (place ++ rel) ∨ checkText (s.root.below rel) = .ok ())
    (discovered : s.discover fs = .ok units) : s.discover fs' = .ok units := by
  have unambiguous := Entry.unambiguous_of_wellNamed named
  obtain ⟨root, found, located, free, members, ascending, rfl⟩ :=
    (discover_eq_ok_iff unambiguous).mp discovered
  obtain ⟨place', resolved', there⟩ := FileSystem.entry_eq_ok_iff.mp located
  obtain rfl := Except.ok.inj (resolved.symm.trans resolved')
  have kept : (fs.root.at? place).isSome := by rw [there]; rfl
  obtain ⟨root', there'⟩ := Option.isSome_iff_exists.mp (changes.keeps.isSome kept)
  refine (discover_eq_ok_iff (changes.unambiguous unambiguous)).mpr
    ⟨root', found, FileSystem.entry_eq_ok_iff.mpr ⟨place, changes.keeps.resolve resolved, there'⟩,
      fun f refuses => ?_, fun p => ?_, ascending, rfl⟩
  · refine free f
      (refuses_of_changes unambiguous changes there there' (fun rel isDir => ?_) refuses)
    by_cases none : rel = []
    · rw [none, List.append_nil] at isDir ⊢
      exact Or.inl (changes.keeps.isDirAt there isDir)
    · exact short rel none isDir
  · rw [seeks_changes_iff unambiguous changes there there' hidden, members]

/-! ### Order and names -/

theorem Finds.relative_names {e : UnitEntry} {entry : Entry}
    (finds : Finds s path relative entry e names) :
    e.relative.names = relative.names ++ names := by
  rw [finds.mirrored, Path.names_below finds.isStep]

/-- What is discovered stands at paths that are found in ascending order. -/
theorem ascending_discover (named : fs.root.wellNamed = true)
    (discovered : s.discover fs = .ok units) :
    units.Pairwise fun e e' => compare e.path.components e'.path.components = .lt := by
  obtain ⟨root, found, located, free, members, ascending, rfl⟩ :=
    (discover_eq_ok_iff (Entry.unambiguous_of_wellNamed named)).mp discovered
  obtain ⟨place, -, there⟩ := FileSystem.entry_eq_ok_iff.mp located
  have named := Entry.wellNamed_of_at? named there
  refine List.pairwise_map.mpr (ascending.imp_of_mem ?_)
  rintro ⟨base, names⟩ ⟨base', names'⟩ member member' less
  have seeks := (members _).mp member
  have seeks' := (members _).mp member'
  obtain rfl : base = s.root := seeks.base
  obtain rfl : base' = s.root := seeks'.base
  have finds := finds_of_seeks named seeks
  have finds' := finds_of_seeks named seeks'
  rwa [EntryPath.compare_toPath (fun name inside => (finds.named name inside).1)
    (fun name inside => (finds'.named name inside).1)] at less

/-- The units that are discovered have different names. -/
theorem nodup_discover (named : fs.root.wellNamed = true)
    (discovered : s.discover fs = .ok units) : (units.map (·.relative.names)).Nodup := by
  refine List.pairwise_map.mpr ((ascending_discover named discovered).imp_of_mem ?_)
  intro e e' member member' less same
  obtain ⟨place, root, names, resolved, there, finds⟩ :=
    finds_of_mem_discover named discovered member
  obtain ⟨place', root', names', resolved', there', finds'⟩ :=
    finds_of_mem_discover named discovered member'
  rw [finds.relative_names, finds'.relative_names, List.append_cancel_left_eq] at same
  rw [finds.located, finds'.located, same, Std.compare_self] at less
  cases less

/-- Units are discovered in the order of their paths. -/
theorem sorted_discover (named : fs.root.wellNamed = true)
    (discovered : s.discover fs = .ok units) :
    units.Pairwise fun e e' => e.path.precedes e'.path = true := by
  refine (ascending_discover named discovered).imp fun less => ?_
  rw [Path.precedes, less]
  rfl

/-- The path of a unit leads to a file, unless the system refuses so long a text. -/
theorem file_of_mem_discover {e : UnitEntry} {units : List UnitEntry}
    (named : fs.root.wellNamed = true) (discovered : s.discover fs = .ok units)
    (member : e ∈ units) (readable : FileSystem.checkText e.path = .ok ()) :
    ∃ p content, fs.resolve e.path = .ok p ∧ fs.root.at? p = some (.file content) := by
  obtain ⟨base, root, names, resolved, there, finds⟩ :=
    finds_of_mem_discover named discovered member
  obtain ⟨before, content, file⟩ := finds.resolve resolved there readable
  exact ⟨_, content, before, file⟩

/-- Where the path of a unit leads after changes, it has led before. -/
theorem resolve_of_keeps {touched : List String → Prop} {e : UnitEntry} {units : List UnitEntry}
    {p : List String} (named : fs.root.wellNamed = true) (discovered : s.discover fs = .ok units)
    (member : e ∈ units) (kept : FileSystem.Keeps touched fs fs')
    (resolved : fs'.resolve e.path = .ok p) : fs.resolve e.path = .ok p := by
  obtain ⟨⟨⟩, readable, -⟩ := bind_eq_ok_iff.mp resolved
  obtain ⟨p', content, before, -⟩ := file_of_mem_discover named discovered member readable
  obtain rfl := Except.ok.inj ((kept.resolve before).symm.trans resolved)
  exact before

/-- No two units stand at one place. -/
theorem eq_of_resolve {e e' : UnitEntry} {units : List UnitEntry} {p : List String}
    (named : fs.root.wellNamed = true) (discovered : s.discover fs = .ok units)
    (member : e ∈ units) (member' : e' ∈ units) (resolved : fs.resolve e.path = .ok p)
    (resolved' : fs.resolve e'.path = .ok p) : e = e' := by
  obtain ⟨base, root, names, resolvedRoot, there, finds⟩ :=
    finds_of_mem_discover named discovered member
  obtain ⟨base', root', names', resolvedRoot', there', finds'⟩ :=
    finds_of_mem_discover named discovered member'
  obtain ⟨⟨⟩, readable, -⟩ := bind_eq_ok_iff.mp resolved
  obtain ⟨⟨⟩, readable', -⟩ := bind_eq_ok_iff.mp resolved'
  obtain ⟨first, -⟩ := finds.resolve resolvedRoot there readable
  obtain ⟨second, -⟩ := finds'.resolve resolvedRoot' there' readable'
  obtain rfl := Except.ok.inj (resolvedRoot.symm.trans resolvedRoot')
  have same : base ++ names = base ++ names' :=
    Except.ok.inj ((first.symm.trans resolved).trans (resolved'.symm.trans second))
  obtain rfl := List.append_cancel_left same
  obtain ⟨path, relative⟩ := e
  obtain ⟨path', relative'⟩ := e'
  rw [UnitEntry.mk.injEq]
  exact ⟨finds.located.trans finds'.located.symm, finds.mirrored.trans finds'.mirrored.symm⟩

end Survey

end Graft
