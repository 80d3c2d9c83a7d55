import Graft.Proofs.Discovery.Exact
import Graft.Proofs.FileSystem.Places
import Graft.Proofs.Path.Parent

/-!
# The units of a file system

The names of a file system are texts, so what a survey finds in it are texts as well. Every unit is
a file some names below the root, and its two paths are made of these names. It is one of the files
looked for, and nothing on the way to it, itself included, is passed over.

The names are those of a well formed file system: entries are called by names, and no two entries
of a directory by the same one.
-/

namespace Graft

open Graft.Path (IsName IsStep)

/-! ### Well formed file systems -/

namespace Entry

mutual

/-- Whether every directory of a tree calls its entries by different names. -/
def wellNamed : Entry → Bool
  | .file _ => true
  | .dir entries => decide (entries.map (·.1)).Nodup && allWellNamed entries

/-- Whether the entries of a directory are called by names, and the trees below are well named. -/
def allWellNamed : List (String × Entry) → Bool
  | [] => true
  | (name, e) :: rest =>
    decide (IsName name ∧ name.utf8ByteSize ≤ FileSystem.maxName) && e.wellNamed &&
      allWellNamed rest

end

theorem lookup_of_mem {name : String} {e : Entry} {entries : List (String × Entry)}
    (distinct : (entries.map (·.1)).Nodup) (member : (name, e) ∈ entries) :
    entries.lookup name = some e := by
  induction entries with
  | nil => cases member
  | cons head rest ih =>
      obtain ⟨first, old⟩ := head
      rw [List.map_cons, List.nodup_cons] at distinct
      rcases List.mem_cons.mp member with same | later
      · cases same
        simp
      · have other : name ≠ first := by
          rintro rfl
          exact distinct.1 (List.mem_map.mpr ⟨(name, e), later, rfl⟩)
        rw [List.lookup_cons, beq_false_of_ne other]
        exact ih distinct.2 later

theorem mem_of_lookup {name : String} {e : Entry} {entries : List (String × Entry)}
    (found : entries.lookup name = some e) : (name, e) ∈ entries := by
  obtain ⟨before, after, rfl, -⟩ := List.lookup_eq_some_iff.mp found
  simp

/-- What a directory of a well named tree holds has a name and is well named. -/
theorem of_mem_allWellNamed {name : String} {e : Entry} {entries : List (String × Entry)}
    (named : allWellNamed entries = true) (member : (name, e) ∈ entries) :
    (IsName name ∧ name.utf8ByteSize ≤ FileSystem.maxName) ∧ e.wellNamed = true := by
  induction entries with
  | nil => cases member
  | cons head rest ih =>
      obtain ⟨first, old⟩ := head
      rw [allWellNamed, Bool.and_eq_true, Bool.and_eq_true, decide_eq_true_eq] at named
      rcases List.mem_cons.mp member with same | later
      · cases same
        exact named.1
      · exact ih named.2 later

/-- What stands in a well named tree is well named. -/
theorem wellNamed_of_at? {root e : Entry} {place : List String} (named : root.wellNamed = true)
    (there : root.at? place = some e) : e.wellNamed = true := by
  induction place generalizing root with
  | nil =>
      rw [at?_nil, Option.some.injEq] at there
      rwa [← there]
  | cons name place ih =>
      cases root with
      | file content => cases there
      | dir entries =>
          rw [wellNamed, Bool.and_eq_true] at named
          rw [at?_dir_cons] at there
          obtain ⟨below, found, there⟩ := Option.bind_eq_some_iff.mp there
          exact ih (of_mem_allWellNamed named.2 (mem_of_lookup found)).2 there

variable {root e : Entry} {place : List String}

/-- In a well named tree only names lead to something. -/
theorem named_of_at? (named : root.wellNamed = true) (there : root.at? place = some e) :
    ∀ name ∈ place, IsName name ∧ name.utf8ByteSize ≤ FileSystem.maxName := by
  induction place generalizing root with
  | nil => simp
  | cons first place ih =>
      cases root with
      | file content => cases there
      | dir entries =>
          rw [wellNamed, Bool.and_eq_true] at named
          rw [at?_dir_cons] at there
          obtain ⟨below, found, there⟩ := Option.bind_eq_some_iff.mp there
          obtain ⟨isName, lower⟩ := of_mem_allWellNamed named.2 (mem_of_lookup found)
          exact List.forall_mem_cons.mpr ⟨isName, ih lower there⟩

/-- No directory of a tree calls two of its entries by one name. -/
def Unambiguous (root : Entry) : Prop :=
  ∀ place entries, root.at? place = some (.dir entries) → (entries.map (·.1)).Nodup

theorem unambiguous_of_wellNamed (named : root.wellNamed = true) : root.Unambiguous := by
  intro place entries there
  have below := wellNamed_of_at? named there
  rw [wellNamed, Bool.and_eq_true, decide_eq_true_eq] at below
  exact below.1

theorem Unambiguous.lower (unambiguous : root.Unambiguous) (there : root.at? place = some e) :
    e.Unambiguous := by
  intro more entries below
  refine unambiguous (place ++ more) entries ?_
  rw [at?_append, there, Option.bind_some, below]

end Entry

/-- Every directory calls its entries by different names, and names lead to the current one. -/
structure FileSystem.WellFormed (fs : FileSystem) : Prop where
  root : fs.root.wellNamed = true
  cwd : ∀ name ∈ fs.cwd, IsName name

/-! ### Paths whose names are texts -/

namespace EntryPath

variable {base : Path} {names a b : List String}

theorem components_below (named : ∀ name ∈ names, IsName name) :
    (base.below names).components = base.components ++ names.map .name := by
  have steps : ∀ name ∈ names, IsStep name := fun name member => (named name member).toIsStep
  have plain : names.map Path.named = names.map .name := by
    refine List.map_congr_left fun name member => ?_
    rw [Path.named, if_neg (named name member).notUp]
  by_cases none : names = []
  · simp [none, Path.below]
  · rw [Path.below_eq_join base steps none,
      Path.components_join (Path.isAbsolute_ofPieces (Path.fits_of_steps steps))
        (Path.lead_ofPieces steps), Path.names_ofPieces_of_steps steps, plain]

/-- What is compared of a path is what is compared of its text. -/
theorem key_toPath (named : ∀ name ∈ names, IsName name) :
    (⟨base, names⟩ : EntryPath String).key =
      (base.below names).components.map Path.Component.key := by
  rw [components_below named, List.map_append, List.map_map]
  rfl

theorem fileName?_toPath (named : ∀ name ∈ names, IsName name) :
    (base.below names).fileName? = names.getLast?.or base.fileName? := by
  rw [Path.fileName?, Path.fileName?, components_below named, List.getLast?_append,
    List.getLast?_map]
  cases names.getLast? <;> rfl

theorem stem?_toPath (named : ∀ name ∈ names, IsName name) :
    (⟨base, names⟩ : EntryPath String).stem? = (base.below names).stem? := by
  rw [Path.stem?, fileName?_toPath named, stem?]
  cases names.getLast? <;> rfl

theorem extension?_toPath (named : ∀ name ∈ names, IsName name) :
    (⟨base, names⟩ : EntryPath String).extension? = (base.below names).extension? := by
  rw [Path.extension?, fileName?_toPath named, extension?]
  cases names.getLast? <;> rfl

theorem compare_toPath (named : ∀ name ∈ a, IsName name) (named' : ∀ name ∈ b, IsName name) :
    compare (⟨base, a⟩ : EntryPath String) ⟨base, b⟩ =
      compare (base.below a).components (base.below b).components := by
  rw [← Path.Component.compare_map_key, ← key_toPath named, ← key_toPath named']
  rfl

end EntryPath

/-! ### Listings of file systems -/

namespace Entry

open FileSystem (checkText)

variable {root e : Entry} {path : Path} {names : List String} {entries : List (String × Entry)}
variable {l : Listing String} {name : String} {fault : FileFault}

theorem listings_eq (path : Path) (entries : List (String × Entry)) :
    listings path entries = entries.map fun e => (e.1, e.2.listing (path.join ⟨e.1⟩)) := by
  induction entries with
  | nil => rfl
  | cons head entries ih =>
      obtain ⟨name, e⟩ := head
      rw [listings, ih, List.map_cons]

theorem mem_listings_iff : (name, l) ∈ listings path entries ↔
    ∃ e, (name, e) ∈ entries ∧ e.listing (path.join ⟨name⟩) = l := by
  simp [listings_eq]

theorem listing_eq_file_iff : e.listing path = .file ↔ ∃ content, e = .file content := by
  cases e with
  | file content => simp [listing]
  | dir entries =>
      rw [listing]
      cases checkText path <;> simp

theorem listing_eq_closed_iff : e.listing path = .closed fault ↔
    (∃ entries, e = .dir entries) ∧ checkText path = .error fault := by
  cases e with
  | file content => simp [listing]
  | dir entries =>
      rw [listing]
      cases checkText path <;> simp

theorem listing_eq_dir_iff {below : List (String × Listing String)} :
    e.listing path = .dir below ↔
      ∃ entries, e = .dir entries ∧ checkText path = .ok () ∧ listings path entries = below := by
  cases e with
  | file content => simp [listing]
  | dir entries =>
      rw [listing]
      cases checkText path <;> simp

/-- The directories on the way along names can be listed. -/
def Open (path : Path) (names : List String) : Prop :=
  ∀ up, up <+: names → up ≠ names → checkText (path.below up) = .ok ()

theorem open_cons : Open path (name :: names) ↔
    checkText path = .ok () ∧ Open (path.join ⟨name⟩) names := by
  constructor
  · intro way
    refine ⟨way [] List.nil_prefix (by simp), fun up initial other => ?_⟩
    exact way (name :: up) (List.cons_prefix_cons.mpr ⟨rfl, initial⟩) (by simpa using other)
  · rintro ⟨here, way⟩ up initial other
    cases up with
    | nil => exact here
    | cons first up =>
        obtain ⟨rfl, within⟩ := List.cons_prefix_cons.mp initial
        exact way up within (by simpa using other)

/-- A listing reaches what stands in the tree, as far as the directories can be listed. -/
theorem reaches_listing_iff (unambiguous : root.Unambiguous) :
    (root.listing path).Reaches names l ↔
      ∃ e, root.at? names = some e ∧ e.listing (path.below names) = l ∧ Open path names := by
  induction names generalizing root path with
  | nil =>
      have way : Open path [] := fun up initial other =>
        absurd (List.prefix_nil.mp initial) other
      simp [Listing.reaches_nil_iff, Path.below, way, eq_comm]
  | cons name names ih =>
      rw [open_cons]
      constructor
      · intro reached
        obtain ⟨_, _, whole, member, lower⟩ := Listing.reaches_cons_iff.mp reached
        obtain ⟨entries, rfl, here, rfl⟩ := listing_eq_dir_iff.mp whole
        obtain ⟨below, inside, rfl⟩ := mem_listings_iff.mp member
        have found := lookup_of_mem (unambiguous [] entries (at?_nil _)) inside
        have there : (Entry.dir entries).at? [name] = some below := by simp [found]
        obtain ⟨e, at', rfl, way⟩ := (ih (unambiguous.lower there)).mp lower
        exact ⟨e, by rw [at?_dir_cons, found, Option.bind_some, at'], rfl, here, way⟩
      · rintro ⟨e, at', rfl, here, way⟩
        cases root with
        | file content => cases at'
        | dir entries =>
            rw [at?_dir_cons] at at'
            obtain ⟨below, found, at'⟩ := Option.bind_eq_some_iff.mp at'
            have there : (Entry.dir entries).at? [name] = some below := by simp [found]
            rw [listing_eq_dir_iff.mpr ⟨entries, rfl, here, rfl⟩]
            exact .inside (mem_listings_iff.mpr ⟨below, mem_of_lookup found, rfl⟩)
              ((ih (unambiguous.lower there)).mpr ⟨e, at', rfl, way⟩)

theorem reaches_file_iff (unambiguous : root.Unambiguous) (path : Path) (names : List String) :
    (root.listing path).Reaches names .file ↔
      (∃ content, root.at? names = some (.file content)) ∧ Open path names := by
  rw [reaches_listing_iff unambiguous]
  constructor
  · rintro ⟨e, there, listed, way⟩
    obtain ⟨content, rfl⟩ := listing_eq_file_iff.mp listed
    exact ⟨⟨content, there⟩, way⟩
  · rintro ⟨⟨content, there⟩, way⟩
    exact ⟨_, there, rfl, way⟩

theorem reaches_closed_iff (unambiguous : root.Unambiguous) :
    (root.listing path).Reaches names (.closed fault) ↔
      (∃ entries, root.at? names = some (.dir entries)) ∧
        checkText (path.below names) = .error fault ∧ Open path names := by
  rw [reaches_listing_iff unambiguous]
  constructor
  · rintro ⟨e, there, listed, way⟩
    obtain ⟨⟨entries, rfl⟩, long⟩ := listing_eq_closed_iff.mp listed
    exact ⟨⟨entries, there⟩, long, way⟩
  · rintro ⟨⟨entries, there⟩, long, way⟩
    exact ⟨_, there, listing_eq_closed_iff.mpr ⟨⟨entries, rfl⟩, long⟩, way⟩

theorem distinct_listing (unambiguous : root.Unambiguous) (path : Path) :
    (root.listing path).Distinct := by
  intro names below reached
  obtain ⟨e, there, listed, -⟩ := (reaches_listing_iff unambiguous).mp reached
  obtain ⟨entries, rfl, -, rfl⟩ := listing_eq_dir_iff.mp listed
  simpa [listings_eq, Function.comp_def] using unambiguous names entries there

end Entry

namespace Survey

open FileSystem (checkText)

variable {s : Survey} {fs : FileSystem} {e : UnitEntry} {path relative : Path} {entry : Entry}
variable {units : List UnitEntry} {names : List String}

/-- What a survey of a file system finds, if it finds anything. -/
theorem discover_eq_ok_iff (unambiguous : fs.root.Unambiguous) : s.discover fs = .ok units ↔
    ∃ root, ∃ found : List (EntryPath String), fs.entry s.root = .ok root ∧
      (∀ f, ¬ s.Refuses (root.listing s.root) f) ∧
      (∀ p, p ∈ found ↔ s.Seeks (root.listing s.root) p) ∧
      found.Pairwise (fun p q => compare p q = .lt) ∧
      units = found.map fun p => ⟨p.toPath, p.relative.toPath⟩ := by
  rw [discover, FileSystem.listing]
  cases located : fs.entry s.root with
  | error fault => simp [explore]
  | ok root =>
      obtain ⟨place, -, there⟩ := FileSystem.entry_eq_ok_iff.mp located
      have distinct := Entry.distinct_listing (unambiguous.lower there) s.root
      have exact (found : List (EntryPath String)) :
          s.explore (.ok (root.listing s.root)) = .ok found ↔ _ := explore_eq_ok_iff distinct
      constructor
      · intro discovered
        cases explored : s.explore (.ok (root.listing s.root)) with
        | error f => simp [explored] at discovered
        | ok found =>
            obtain ⟨free, members, ascending⟩ := (exact found).mp explored
            simp only [explored, Except.ok.injEq] at discovered
            exact ⟨root, found, rfl, free, members, ascending, discovered.symm⟩
      · rintro ⟨_, found, ⟨⟩, free, members, ascending, rfl⟩
        simp only [(exact found).mpr ⟨free, members, ascending⟩]

/-- What a survey of a file system finds is what it selects of a walk. -/
theorem discover_of_select (root : Entry) (found : List (EntryPath String))
    (unambiguous : fs.root.Unambiguous) (located : fs.entry s.root = .ok root)
    (selected : s.select (s.steps (root.listing s.root)) = .ok found) :
    s.discover fs = .ok (found.map fun p => ⟨p.toPath, p.relative.toPath⟩) := by
  obtain ⟨place, -, there⟩ := FileSystem.entry_eq_ok_iff.mp located
  have distinct := Entry.distinct_listing (unambiguous.lower there) s.root
  simp only [discover, FileSystem.listing, located, explore_eq_select distinct, selected]

/-- A unit that a survey finds at names below an entry. -/
structure Finds (s : Survey) (path relative : Path) (entry : Entry) (e : UnitEntry)
    (names : List String) : Prop where
  named : ∀ name ∈ names, IsName name ∧ name.utf8ByteSize ≤ FileSystem.maxName
  located : e.path = path.below names
  mirrored : e.relative = relative.below names
  file : ∃ content, entry.at? names = some (.file content)
  handled : s.frontend.canHandle e.path = true
  ungenerated : ∀ suffix stem, s.generatedSuffix = some suffix → e.path.stem? = some stem →
    ¬ suffix.toList <:+ stem.toList
  spared : ∀ up, up <+: names → ∀ q ∈ s.skipped, q.same (path.below up) = false

theorem Finds.isStep (finds : Finds s path relative entry e names) :
    ∀ name ∈ names, Path.IsStep name :=
  fun name member => (finds.named name member).1.toIsStep

/-- What a survey seeks in a well named tree it finds at the names. -/
theorem finds_of_seeks (named : entry.wellNamed = true) {p : EntryPath String}
    (seeks : s.Seeks (entry.listing s.root) p) :
    Finds s s.root ⟨""⟩ entry ⟨p.toPath, p.relative.toPath⟩ p.names := by
  obtain ⟨base, names⟩ := p
  obtain ⟨rfl, file, ⟨extension, known, last⟩, ungenerated, -, spared⟩ := seeks
  obtain ⟨⟨content, at'⟩, -⟩ :=
    (Entry.reaches_file_iff (Entry.unambiguous_of_wellNamed named) _ _).mp file
  have small := Entry.named_of_at? named at'
  have named : ∀ name ∈ names, IsName name := fun name member => (small name member).1
  rw [EntryPath.extension?_toPath named] at last
  simp only [EntryPath.stem?_toPath named] at ungenerated
  refine ⟨small, rfl, rfl, ⟨content, at'⟩, ?_, ungenerated, fun up initial q member => ?_⟩
  · rw [Frontend.canHandle, EntryPath.toPath, last]
    simpa [Frontend.knows] using known
  · have other := spared up initial q member
    rw [EntryPath.key_toPath fun name inside => named name (initial.subset inside), ne_eq,
      Path.Component.map_key_inj] at other
    simpa [Path.same] using fun same => other same.symm

/-- Every unit that is discovered stands at names below the place of the root. -/
theorem finds_of_mem_discover (named : fs.root.wellNamed = true)
    (discovered : s.discover fs = .ok units) (member : e ∈ units) :
    ∃ place root names, fs.resolve s.root = .ok place ∧ fs.root.at? place = some root ∧
      Finds s s.root ⟨""⟩ root e names := by
  obtain ⟨root, found, located, -, members, -, rfl⟩ :=
    (discover_eq_ok_iff (Entry.unambiguous_of_wellNamed named)).mp discovered
  obtain ⟨p, inside, rfl⟩ := List.mem_map.mp member
  obtain ⟨place, resolved, there⟩ := FileSystem.entry_eq_ok_iff.mp located
  exact ⟨place, root, p.names, resolved, there,
    finds_of_seeks (Entry.wellNamed_of_at? named there) ((members p).mp inside)⟩

/-- The path of a unit leads to its file, unless the system refuses so long a text. -/
theorem Finds.resolve {place : List String} {root : Entry}
    (finds : Finds s path relative root e names) (resolved : fs.resolve path = .ok place)
    (there : fs.root.at? place = some root) (readable : FileSystem.checkText e.path = .ok ()) :
    fs.resolve e.path = .ok (place ++ names) ∧
      ∃ content, fs.root.at? (place ++ names) = some (.file content) := by
  obtain ⟨content, below⟩ := finds.file
  have file : fs.root.at? (place ++ names) = some (.file content) := by
    rw [Entry.at?_append, there, Option.bind_some, below]
  rw [finds.located] at readable ⊢
  exact ⟨FileSystem.resolve_below resolved finds.named file readable, content, file⟩

/-- The file of a unit is found as it was after changes at other places. -/
theorem entry_of_keeps {touched : List String → Prop} {fs' : FileSystem}
    (named : fs.root.wellNamed = true) (discovered : s.discover fs = .ok units) (member : e ∈ units)
    (kept : FileSystem.Keeps touched fs fs')
    (apart : ∀ place, FileSystem.MayLeadTo fs.cwd e.path place → ¬ touched place) :
    fs'.entry e.path = fs.entry e.path := by
  obtain ⟨place, root, names, resolved, there, finds⟩ :=
    finds_of_mem_discover named discovered member
  cases readable : FileSystem.checkText e.path with
  | error fault =>
      rw [FileSystem.entry_of_unreadable readable, FileSystem.entry_of_unreadable readable]
  | ok u =>
      obtain ⟨resolved', content, file⟩ := finds.resolve resolved there readable
      exact kept.entry resolved' file
        (apart _ (FileSystem.mayLeadTo_of_resolve resolved' file))

end Survey

end Graft
