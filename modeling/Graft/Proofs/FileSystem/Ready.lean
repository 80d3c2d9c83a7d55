import Graft.Proofs.FileSystem.Places

/-!
# Writing a file again

A file that has been written is ready to be written again: its directory is there, so that making
it changes nothing, and the path opens the same file. This stays so whatever is done to the file
system afterwards, since no entry is ever taken away. Writing a file that is ready sets its content
and does nothing else, and nothing at all if it is the content that the file has.
-/

namespace Graft

namespace Entry

variable {root e : Entry} {place : List String}

theorem setNamed_of_lookup {name : String} {entries : List (String × Entry)}
    (found : entries.lookup name = some e) : setNamed name e entries = entries := by
  induction entries with
  | nil => cases found
  | cons head rest ih =>
      obtain ⟨first, old⟩ := head
      rw [List.lookup_cons] at found
      rw [setNamed]
      split at found
      · next here =>
          cases found
          rw [if_pos here]
      · next other => rw [if_neg (by simpa using other), ih found]

/-- Setting what stands at a place changes nothing. -/
theorem put_of_at? (there : root.at? place = some e) : root.put place e = root := by
  induction place generalizing root with
  | nil =>
      rw [at?_nil, Option.some.injEq] at there
      rw [there]
      cases e <;> rfl
  | cons name place ih =>
      cases root with
      | file content => cases there
      | dir entries =>
          rw [at?_dir_cons] at there
          obtain ⟨old, found, below⟩ := Option.bind_eq_some_iff.mp there
          simp [put, found, ih below, setNamed_of_lookup found]

theorem setNamed_setNamed (name : String) (e e' : Entry) (entries : List (String × Entry)) :
    setNamed name e' (setNamed name e entries) = setNamed name e' entries := by
  induction entries with
  | nil => simp [setNamed]
  | cons head rest ih =>
      obtain ⟨first, old⟩ := head
      cases here : name == first <;> simp [setNamed, here, ih]

/-- Of two settings of a place the later one counts. -/
theorem put_put (root e e' : Entry) (place : List String) :
    (root.put place e).put place e' = root.put place e' := by
  induction place generalizing root with
  | nil => cases root <;> cases e <;> rfl
  | cons name place ih =>
      cases root with
      | file content => rfl
      | dir entries =>
          cases found : entries.lookup name with
          | some old =>
              simp [put, found, lookup_setNamed_self, setNamed_setNamed, ih old]
          | none =>
              cases place with
              | nil =>
                  simp [put, found, lookup_setNamed_self, setNamed_setNamed]
              | cons second more => simp [put, found]

end Entry

namespace FileSystem

open Graft.Path (counts)

variable {touched : List String → Prop} {fs fs' before after : FileSystem} {p : Path}
variable {place next : List String} {entries : List (String × Entry)} {text : String}
variable {content : Content}

/-! ### Directories that are there -/

theorem followAll_cons_eq_ok_iff {piece : String} {pieces : List String} :
    fs.followAll place (piece :: pieces) = .ok next ↔
      ∃ mid, fs.follow place piece = .ok mid ∧ fs.followAll mid pieces = .ok next := by
  rw [followAll]
  cases fs.follow place piece <;> simp

theorem followAll_of_blank {blanks : List String} (here : fs.root.at? place = some (.dir entries))
    (blank : ∀ b ∈ blanks, b = "") : fs.followAll place blanks = .ok place := by
  induction blanks with
  | nil => rfl
  | cons b blanks ih =>
      obtain ⟨rfl, others⟩ := List.forall_mem_cons.mp blank
      exact followAll_cons_eq_ok_iff.mpr ⟨place, follow_blank here rfl, ih others⟩

theorem isDir_iff : fs.isDir p = true ↔
    ∃ place entries, fs.resolve p = .ok place ∧ fs.root.at? place = some (.dir entries) := by
  unfold isDir
  constructor
  · intro isDir
    split at isDir
    · next entries found =>
        obtain ⟨place, resolved, there⟩ := entry_eq_ok_iff.mp found
        exact ⟨place, entries, resolved, there⟩
    · cases isDir
  · rintro ⟨place, entries, resolved, there⟩
    rw [entry_eq_ok_iff.mpr ⟨place, resolved, there⟩]

theorem Keeps.resolve (kept : Keeps touched before after)
    (resolved : before.resolve p = .ok place) : after.resolve p = .ok place := by
  obtain ⟨⟨⟩, readable, followed⟩ := bind_eq_ok_iff.mp resolved
  refine bind_eq_ok_iff.mpr ⟨(), readable, ?_⟩
  rw [start, kept.cwd]
  exact kept.followAll followed

theorem Keeps.isDir (kept : Keeps touched before after) (isDir : before.isDir p = true) :
    after.isDir p = true := by
  obtain ⟨place, entries, resolved, there⟩ := isDir_iff.mp isDir
  obtain ⟨entries', there'⟩ := kept.dir place entries there
  exact isDir_iff.mpr ⟨place, entries', kept.resolve resolved, there'⟩

/-- A directory that is there cannot be made. -/
theorem makeDir_of_isDir (isDir : fs.isDir p = true) : fs.makeDir p = .error .alreadyExists := by
  obtain ⟨place, entries, resolved, there⟩ := isDir_iff.mp isDir
  obtain ⟨⟨⟩, readable, followed⟩ := bind_eq_ok_iff.mp resolved
  unfold makeDir
  rcases pieces_cases p.pieces with blank | ⟨init, name, blanks, split, given, blank⟩
  · rw [slot_of_blank readable blank]
    rfl
  · rw [split, followAll_append] at followed
    obtain ⟨dir, before, followed⟩ := bind_eq_ok_iff.mp followed
    obtain ⟨mid, step, -⟩ := followAll_cons_eq_ok_iff.mp followed
    obtain ⟨es, here, way⟩ := follow_eq_ok step
    rw [slot_of_dir readable split given blank before here]
    rcases way with ⟨stays, -⟩ | ⟨rfl, -⟩ | ⟨counted, notUp, small, taken, -⟩
    · obtain rfl := (blank_cases stays).resolve_left given
      rfl
    · rfl
    · have named : ¬ (name = "." ∨ name = "..") := by
        rintro (rfl | rfl)
        · cases counted
        · exact notUp rfl
      simp [bind, Except.bind, named, Nat.not_lt.mpr small, taken, throw, throwThe,
        MonadExceptOf.throw]

/-- A directory is made empty, where nothing stood, and the path then leads to it. -/
theorem makeDir_eq_put (made : fs.makeDir p = .ok fs') :
    ∃ dir name entries, fs.root.at? dir = some (.dir entries) ∧ entries.lookup name = none ∧
      fs' = fs.put (dir ++ [name]) .emptyDir ∧ fs'.resolve p = .ok (dir ++ [name]) := by
  have kept := (makeDir_changes (fun _ => False) made).keeps
  obtain ⟨slot, found, notHere, notUp, small, free, rfl⟩ := makeDir_eq_ok made
  obtain ⟨readable, here, init, blanks, split, given, blank, -, followed⟩ := slot_eq_some found
  obtain ⟨entries, here'⟩ := kept.dir _ _ here
  have there := Entry.at?_put_self .emptyDir slot.name here
  have taken : (entries.lookup slot.name).isSome := by
    rw [← Entry.at?_concat here', FileSystem.put, there, Option.isSome_some]
  have counted : counts slot.name = true := by
    simp [counts, given, notHere]
  have step := follow_entry here' counted notUp small taken
  refine ⟨slot.dir, slot.name, slot.entries, here, free, rfl, ?_⟩
  refine bind_eq_ok_iff.mpr ⟨(), readable, ?_⟩
  rw [split, followAll_append]
  refine bind_eq_ok_iff.mpr ⟨slot.dir, kept.followAll followed, ?_⟩
  exact followAll_cons_eq_ok_iff.mpr ⟨_, step, followAll_of_blank there blank⟩

/-- A directory that was made is there. -/
theorem isDir_of_makeDir (made : fs.makeDir p = .ok fs') : fs'.isDir p = true := by
  obtain ⟨dir, name, entries, here, -, rfl, resolved⟩ := makeDir_eq_put made
  exact isDir_iff.mpr ⟨dir ++ [name], [], resolved, Entry.at?_put_self .emptyDir name here⟩

theorem createDirsWithin_of_isDir (levels : Nat) (isDir : fs.isDir p = true) :
    createDirsWithin (levels + 1) fs p = (.ok (), fs) := by
  rw [createDirsWithin, makeDir_of_isDir isDir]
  simp [isDir]

/-- Directories that were made are there. -/
theorem isDir_of_createDirsWithin {levels : Nat} (given : p.text ≠ "")
    (made : createDirsWithin levels fs p = (.ok (), fs')) : fs'.isDir p = true := by
  cases levels with
  | zero => cases made
  | succ levels =>
      rw [createDirsWithin, if_neg given] at made
      split at made
      · next step =>
          cases made
          exact isDir_of_makeDir step
      · split at made
        · cases made
        · split at made
          · cases made
          · split at made
            · next step =>
                cases made
                exact isDir_of_makeDir step
            · split at made
              · next isDir =>
                  cases made
                  exact isDir
              · cases made
      · split at made
        · next isDir =>
            cases made
            exact isDir
        · cases made

/-- The directory of a file is there once it was made. -/
theorem createParent_again (made : before.createParent p = (.ok (), fs))
    (kept : Keeps touched fs after) : after.createParent p = (.ok (), after) := by
  unfold createParent at made ⊢
  cases above : p.parent? with
  | none => rfl
  | some parent =>
      rw [above] at made
      by_cases given : parent.text = ""
      · simp [createDirs, createDirsWithin, given]
      · exact createDirsWithin_of_isDir _ (kept.isDir (isDir_of_createDirsWithin given made))

/-! ### Files that have been written -/

/-- A file whose directory is there and which can be opened at a place. -/
structure Ready (fs : FileSystem) (p : Path) (place : List String) : Prop where
  parent : fs.createParent p = (.ok (), fs)
  opened : ∃ content, fs.openFile p = .ok (place, some content) ∧
    fs.root.at? place = some (.file content)

/-- A path that has opened a file opens the file that stands there later. -/
theorem openFile_again {content? : Option Content}
    (opened : before.openFile p = .ok (place, content?)) (kept : Keeps touched before after)
    (there : after.root.at? place = some (.file content)) :
    after.openFile p = .ok (place, some content) := by
  obtain ⟨slot, found, notHere, notUp, plain, small, rfl, -⟩ := openFile_eq_ok_iff.mp opened
  obtain ⟨readable, here, init, blanks, split, given, blank, trailing, followed⟩ :=
    slot_eq_some found
  obtain ⟨entries, here'⟩ := kept.dir _ _ here
  have followed' : after.followAll (after.start p) init = .ok slot.dir := by
    rw [start, kept.cwd]
    exact kept.followAll followed
  refine openFile_eq_ok_iff.mpr
    ⟨_, slot_of_dir readable split given blank followed' here', notHere, notUp, ?_, small, rfl, ?_⟩
  · rw [← trailing, plain]
  · rw [← Entry.at?_concat here', there, Option.map_some]

theorem at?_put_opened {content? : Option Content} (opened : fs.openFile p = .ok (place, content?))
    (new : Content) : (fs.put place (.file new)).root.at? place = some (.file new) := by
  obtain ⟨-, dir, name, entries, rfl, here, -⟩ := openFile_eq_ok opened
  exact Entry.at?_put_self (.file new) name here

/-- The path that opens a file leads to it. -/
theorem resolve_of_openFile (opened : fs.openFile p = .ok (place, some content)) :
    fs.resolve p = .ok place := by
  obtain ⟨slot, found, notHere, notUp, plain, small, rfl, taken⟩ := openFile_eq_ok_iff.mp opened
  obtain ⟨readable, here, init, blanks, split, given, -, trailing, followed⟩ := slot_eq_some found
  have direct : blanks = [] := by simpa [trailing] using plain
  have counted : counts slot.name = true := by simp [counts, given, notHere]
  have step := follow_entry here counted notUp small (by simp [taken])
  refine bind_eq_ok_iff.mpr ⟨(), readable, ?_⟩
  rw [split, direct, followAll_append]
  exact bind_eq_ok_iff.mpr ⟨slot.dir, followed, followAll_cons_eq_ok_iff.mpr ⟨_, step, rfl⟩⟩

/-- A file is ready once its directory was made and it was opened and filled. -/
theorem ready_of_openFile {content? : Option Content}
    (made : before.createParent p = (.ok (), fs)) (opened : fs.openFile p = .ok (place, content?))
    (new : Content) : Ready (fs.put place (.file new)) p place := by
  have kept := (changes_of_openFile opened new).keeps
  have there := at?_put_opened opened new
  exact ⟨createParent_again made kept, _, openFile_again opened kept there, there⟩

namespace Ready

/-- What is ready stays ready. -/
theorem keeps (ready : Ready before p place) (kept : Keeps touched before after) :
    Ready after p place := by
  obtain ⟨content, opened, there⟩ := ready.opened
  obtain ⟨content', there', -⟩ := kept.file place content there
  exact ⟨createParent_again ready.parent kept, content', openFile_again opened kept there', there'⟩

/-- The path of a file that is ready leads to it. -/
theorem resolve (ready : Ready fs p place) : fs.resolve p = .ok place := by
  obtain ⟨content, opened, -⟩ := ready.opened
  exact resolve_of_openFile opened

/-- A file that is ready is read at its place. -/
theorem readText (ready : Ready fs p place)
    (there : fs.root.at? place = some (.file (.text text))) : fs.readText p = .ok text :=
  readText_of_resolve ready.resolve there

theorem mayLeadTo (ready : Ready fs p place) : MayLeadTo fs.cwd p place := by
  obtain ⟨content, opened, -⟩ := ready.opened
  exact (openFile_eq_ok opened).1

theorem write (ready : Ready fs p place) (text : String) :
    fs.write p text = .ok (fs.put place (.file (.text text))) := by
  obtain ⟨content, opened, -⟩ := ready.opened
  exact bind_eq_ok_iff.mpr ⟨_, opened, rfl⟩

theorem append (ready : Ready fs p place) (there : fs.root.at? place = some (.file content))
    (text : String) : fs.append p text = .ok (fs.put place (.file (content.append text))) := by
  obtain ⟨content', opened, there'⟩ := ready.opened
  obtain rfl : content' = content := by simpa using there'.symm.trans there
  exact bind_eq_ok_iff.mpr ⟨_, opened, rfl⟩

theorem at?_put (ready : Ready fs p place) (new : Content) :
    (fs.put place (.file new)).root.at? place = some (.file new) := by
  obtain ⟨content, opened, -⟩ := ready.opened
  exact at?_put_opened opened new

theorem put (ready : Ready fs p place) (new : Content) :
    Ready (fs.put place (.file new)) p place := by
  obtain ⟨content, opened, -⟩ := ready.opened
  exact ready.keeps (changes_of_openFile opened new).keeps

end Ready

theorem put_of_at? {e : Entry} (there : fs.root.at? place = some e) : fs.put place e = fs := by
  rw [FileSystem.put, Entry.put_of_at? there]

theorem put_put (fs : FileSystem) (place : List String) (e e' : Entry) :
    (fs.put place e).put place e' = fs.put place e' := by
  simp only [FileSystem.put, Entry.put_put]

end FileSystem

end Graft
