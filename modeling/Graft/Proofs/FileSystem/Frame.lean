import Graft.FileSystem.Basic
import Graft.Proofs.Path.Names

/-!
# What file operations leave alone

No operation takes an entry away, and none turns a file into a directory or a directory into a
file. `Keeps` says this of two states, and that files have their content unless their place was
touched. Making directories touches nothing, and writing touches the place of the file.

`Changes` lists the steps from one state to the other. What holds of two states because no step
spoils it, as `Keeps` does, is shown by induction on the steps.
-/

namespace Graft

namespace Entry

variable {root e : Entry} {entries : List (String × Entry)} {place dir : List String}
variable {name : String}

theorem at?_append (root : Entry) (place rest : List String) :
    root.at? (place ++ rest) = (root.at? place).bind (·.at? rest) := by
  induction place generalizing root with
  | nil => simp
  | cons name place ih =>
      cases root with
      | file content => rfl
      | dir entries =>
          rw [List.cons_append, at?_dir_cons, at?_dir_cons]
          cases entries.lookup name with
          | none => rfl
          | some old => exact ih old

/-- What is in a directory is what its entries say. -/
theorem at?_concat (here : root.at? place = some (.dir entries)) (name : String) :
    root.at? (place ++ [name]) = entries.lookup name := by
  rw [at?_append, here, Option.bind_some, at?_dir_cons]
  cases entries.lookup name <;> simp

/-- Only directories have something below them. -/
theorem dir_of_at?_append (below : root.at? (place ++ name :: dir) = some e) :
    ∃ entries, root.at? place = some (.dir entries) := by
  rw [at?_append] at below
  obtain ⟨here, found, rest⟩ := Option.bind_eq_some_iff.mp below
  cases here with
  | file content => cases rest
  | dir entries => exact ⟨entries, found⟩

/-- What stands above an entry is a directory. -/
theorem dir_of_above {rest : List String} {next : String}
    (here : root.at? dir = some (.dir entries)) (above : place ++ next :: rest = dir ++ [name]) :
    ∃ entries', root.at? place = some (.dir entries') := by
  rcases List.eq_nil_or_concat rest with rfl | ⟨front, last, rfl⟩
  · obtain ⟨rfl, -⟩ := List.append_inj' above rfl
    exact ⟨entries, here⟩
  · have whole : place ++ next :: front ++ [last] = dir ++ [name] := by simpa using above
    obtain ⟨rfl, -⟩ := List.append_inj' whole rfl
    exact dir_of_at?_append here

theorem dir_of_dropLast (here : root.at? dir = some (.dir entries)) :
    ∃ entries', root.at? dir.dropLast = some (.dir entries') := by
  rcases List.eq_nil_or_concat dir with rfl | ⟨front, last, rfl⟩
  · exact ⟨entries, here⟩
  · rw [List.concat_eq_append] at here ⊢
    rw [List.dropLast_concat]
    exact dir_of_at?_append here

/-- A change below an entry is a change of that entry. -/
theorem at?_put_append (new : Entry) {rest : List String} (there : root.at? place = some e) :
    (root.put (place ++ rest) new).at? place = some (e.put rest new) := by
  induction place generalizing root with
  | nil =>
      rw [at?_nil, Option.some.injEq] at there
      rw [there, List.nil_append, at?_nil]
  | cons first place ih =>
      cases root with
      | file content => cases there
      | dir es =>
          rw [at?_dir_cons] at there
          obtain ⟨old, found, there⟩ := Option.bind_eq_some_iff.mp there
          simp [put, found, lookup_setNamed_self, ih there]

/-- A change below a directory leaves a directory. -/
theorem at?_put_of_above (e : Entry) {rest : List String}
    (above : root.at? place = some (.dir entries)) :
    ∃ entries', (root.put (place ++ name :: rest) e).at? place = some (.dir entries') := by
  rw [at?_put_append e above]
  cases found : entries.lookup name with
  | none => cases rest <;> simp [put, found]
  | some old => simp [put, found]

end Entry

theorem bind_eq_ok_iff {ε α β : Type} {x : Except ε α} {f : α → Except ε β} {b : β} :
    x >>= f = .ok b ↔ ∃ a, x = .ok a ∧ f a = .ok b := by
  cases x with
  | error fault => simp [bind, Except.bind]
  | ok a => simp [bind, Except.bind]

namespace FileSystem

open Graft.Path (IsName)

variable {touched touched' : List String → Prop} {fs fs' before after : FileSystem} {p : Path}
variable {place dir : List String} {entries : List (String × Entry)} {name text : String}

/-- Directories stay directories, files stay files, and files whose place is not touched keep
their content. -/
structure Keeps (touched : List String → Prop) (before after : FileSystem) : Prop where
  cwd : after.cwd = before.cwd
  dir : ∀ place entries, before.root.at? place = some (.dir entries) →
    ∃ entries', after.root.at? place = some (.dir entries')
  file : ∀ place content, before.root.at? place = some (.file content) →
    ∃ content', after.root.at? place = some (.file content') ∧
      (¬ touched place → content' = content)

namespace Keeps

theorem refl (touched : List String → Prop) (fs : FileSystem) : Keeps touched fs fs :=
  ⟨rfl, fun _ entries here => ⟨entries, here⟩, fun _ content here => ⟨content, here, fun _ => rfl⟩⟩

theorem trans (first : Keeps touched fs before) (second : Keeps touched before after) :
    Keeps touched fs after := by
  refine ⟨second.cwd.trans first.cwd, ?_, ?_⟩
  · intro place entries here
    obtain ⟨entries', here⟩ := first.dir place entries here
    exact second.dir place entries' here
  · intro place content here
    obtain ⟨content', here, same⟩ := first.file place content here
    obtain ⟨content'', here, same'⟩ := second.file place content' here
    exact ⟨content'', here, fun untouched => (same' untouched).trans (same untouched)⟩

/-- Only the places of files matter. -/
theorem mono (kept : Keeps touched before after)
    (wider : ∀ place content, before.root.at? place = some (.file content) → touched place →
      touched' place) : Keeps touched' before after := by
  refine ⟨kept.cwd, kept.dir, ?_⟩
  intro place content here
  obtain ⟨content', here', same⟩ := kept.file place content here
  exact ⟨content', here', fun untouched => same fun inside =>
    untouched (wider place content here inside)⟩

/-- No entry is lost. -/
theorem isSome (kept : Keeps touched before after) (here : (before.root.at? place).isSome) :
    (after.root.at? place).isSome := by
  obtain ⟨e, here⟩ := Option.isSome_iff_exists.mp here
  cases e with
  | dir entries =>
      obtain ⟨entries', here'⟩ := kept.dir place entries here
      simp [here']
  | file content =>
      obtain ⟨content', here', -⟩ := kept.file place content here
      simp [here']

end Keeps

theorem dirAt_eq_ok_iff : fs.dirAt place = .ok entries ↔
    fs.root.at? place = some (.dir entries) := by
  unfold dirAt
  cases fs.root.at? place with
  | none => simp
  | some e => cases e <;> simp

/-- A list starts with another, or the other goes on where it ends, or neither holds. -/
theorem prefix_cases (a b : List String) :
    (∃ rest, b = a ++ rest) ∨ (∃ next rest, a = b ++ next :: rest) ∨ ¬ a <+: b ∧ ¬ b <+: a := by
  by_cases lower : a <+: b
  · obtain ⟨rest, whole⟩ := lower
    exact Or.inl ⟨rest, whole.symm⟩
  · by_cases upper : b <+: a
    · obtain ⟨rest, rfl⟩ := upper
      cases rest with
      | nil => exact absurd ⟨[], by simp⟩ lower
      | cons next rest => exact Or.inr (Or.inl ⟨next, rest, rfl⟩)
    · exact Or.inr (Or.inr ⟨lower, upper⟩)

/-- Setting a file where a file or nothing stands, or a directory where nothing does, touches that
place only. -/
theorem keeps_put {e : Entry} (here : fs.root.at? dir = some (.dir entries))
    (fits : entries.lookup name = none ∨
      ∃ old new, entries.lookup name = some (.file old) ∧ e = .file new) :
    Keeps (· = dir ++ [name]) fs (fs.put (dir ++ [name]) e) := by
  have below : ∀ rest found, fs.root.at? (dir ++ [name] ++ rest) = some found →
      rest = [] ∧ ∃ old new, found = .file old ∧ e = .file new := by
    intro rest found there
    rw [Entry.at?_append, Entry.at?_concat here] at there
    rcases fits with free | ⟨old, new, taken, rfl⟩
    · rw [free] at there
      cases there
    · rw [taken, Option.bind_some] at there
      cases rest with
      | nil => exact ⟨rfl, old, new, by simpa using there.symm, rfl⟩
      | cons next rest => cases there
  refine ⟨rfl, ?_, ?_⟩
  · intro place es there
    rcases prefix_cases (dir ++ [name]) place with ⟨rest, rfl⟩ | ⟨next, rest, above⟩ | apart
    · obtain ⟨-, old, new, isFile, -⟩ := below rest _ there
      cases isFile
    · rw [FileSystem.put, above]
      exact Entry.at?_put_of_above e there
    · exact ⟨es, (Entry.at?_put_of_apart e apart.1 apart.2).trans there⟩
  · intro place content there
    rcases prefix_cases (dir ++ [name]) place with ⟨rest, rfl⟩ | ⟨next, rest, above⟩ | apart
    · obtain ⟨rfl, old, new, -, rfl⟩ := below rest _ there
      rw [List.append_nil]
      exact ⟨new, Entry.at?_put_self _ name here, fun untouched => absurd rfl untouched⟩
    · obtain ⟨es, isDir⟩ := Entry.dir_of_above here above.symm
      rw [there] at isDir
      cases isDir
    · exact ⟨content, (Entry.at?_put_of_apart e apart.1 apart.2).trans there, fun _ => rfl⟩

/-- A file that stands somewhere after a directory or a file was set is that file, or it stood
there before. -/
theorem file_of_put {e : Entry} {content : Content}
    (leaf : ∀ next rest, e.at? (next :: rest) = none)
    (here : fs.root.at? dir = some (.dir entries))
    (there : (fs.put (dir ++ [name]) e).root.at? place = some (.file content)) :
    place = dir ++ [name] ∧ e = .file content ∨
      fs.root.at? place = some (.file content) := by
  rcases prefix_cases (dir ++ [name]) place with ⟨rest, rfl⟩ | ⟨next, rest, above⟩ | apart
  · rw [Entry.at?_append, FileSystem.put, Entry.at?_put_self _ name here, Option.bind_some] at there
    cases rest with
    | nil => exact Or.inl ⟨List.append_nil _, by simpa using there⟩
    | cons next rest =>
        rw [leaf] at there
        cases there
  · obtain ⟨es, isDir⟩ := Entry.dir_of_above here above.symm
    have isDir' : ∃ es', (fs.root.put (place ++ next :: rest) e).at? place = some (.dir es') :=
      Entry.at?_put_of_above e isDir
    obtain ⟨es', isDir'⟩ := isDir'
    rw [FileSystem.put, above, isDir'] at there
    cases there
  · exact Or.inr ((Entry.at?_put_of_apart e apart.1 apart.2).symm.trans there)

/-! ### Steps of change -/

/-- What file operations do, step by step: a directory or a file comes to stand where nothing did,
or a file gets another content. Only the places of files count as touched. -/
inductive Changes (touched : List String → Prop) (before : FileSystem) : FileSystem → Prop
  | refl : Changes touched before before
  | makeDir {after : FileSystem} {dir : List String} {entries : List (String × Entry)}
      {name : String} (changes : Changes touched before after)
      (here : after.root.at? dir = some (.dir entries)) (free : entries.lookup name = none) :
      Changes touched before (after.put (dir ++ [name]) .emptyDir)
  | setFile {after : FileSystem} {dir : List String} {entries : List (String × Entry)}
      {name : String} (content : Content) (changes : Changes touched before after)
      (here : after.root.at? dir = some (.dir entries))
      (fits : entries.lookup name = none ∨ ∃ old, entries.lookup name = some (.file old))
      (inside : touched (dir ++ [name])) :
      Changes touched before (after.put (dir ++ [name]) (.file content))

namespace Changes

theorem trans (first : Changes touched fs before) (second : Changes touched before after) :
    Changes touched fs after := by
  induction second with
  | refl => exact first
  | makeDir changes here free ih => exact ih.makeDir here free
  | setFile content changes here fits inside ih => exact ih.setFile content here fits inside

theorem mono (changes : Changes touched before after)
    (wider : ∀ place, touched place → touched' place) : Changes touched' before after := by
  induction changes with
  | refl => exact .refl
  | makeDir changes here free ih => exact ih.makeDir here free
  | setFile content changes here fits inside ih =>
      exact ih.setFile content here fits (wider _ inside)

theorem keeps (changes : Changes touched before after) : Keeps touched before after := by
  induction changes with
  | refl => exact .refl _ _
  | makeDir changes here free ih =>
      refine ih.trans ((keeps_put here (Or.inl free)).mono ?_)
      rintro place content taken rfl
      rw [Entry.at?_concat here, free] at taken
      cases taken
  | setFile content changes here fits inside ih =>
      refine ih.trans ((keeps_put here ?_).mono fun place _ _ same => same ▸ inside)
      exact fits.imp_right fun taken => taken.elim fun old taken => ⟨old, content, taken, rfl⟩

/-- No file comes to stand at a place that is not touched. -/
theorem file_of_file (changes : Changes touched before after) (untouched : ¬ touched place)
    {content : Content} (there : after.root.at? place = some (.file content)) :
    before.root.at? place = some (.file content) := by
  induction changes with
  | refl => exact there
  | makeDir changes here free ih =>
      rcases file_of_put (fun _ _ => rfl) here there with ⟨-, isDir⟩ | before
      · cases isDir
      · exact ih before
  | setFile new changes here fits inside ih =>
      rcases file_of_put (fun _ _ => rfl) here there with ⟨same, -⟩ | before
      · exact absurd (same ▸ inside) untouched
      · exact ih before

/-- Where nothing is touched the same files stand. -/
theorem file_iff (changes : Changes touched before after) (untouched : ¬ touched place)
    {content : Content} : after.root.at? place = some (.file content) ↔
      before.root.at? place = some (.file content) := by
  refine ⟨changes.file_of_file untouched, ?_⟩
  intro there
  obtain ⟨content', there', same⟩ := changes.keeps.file place content there
  rwa [same untouched] at there'

end Changes

/-! ### Making directories -/

/-- Pieces are empty, or end with one that is not and empty ones behind it. -/
theorem pieces_cases (pieces : List String) : (∀ blank ∈ pieces, blank = "") ∨
    ∃ init name blanks, pieces = init ++ name :: blanks ∧ name ≠ "" ∧
      ∀ blank ∈ blanks, blank = "" := by
  induction pieces with
  | nil => exact Or.inl (by simp)
  | cons piece pieces ih =>
      rcases ih with blank | ⟨init, name, blanks, rfl, given, blank⟩
      · by_cases empty : piece = ""
        · exact Or.inl (List.forall_mem_cons.mpr ⟨empty, blank⟩)
        · exact Or.inr ⟨[], piece, pieces, rfl, empty, blank⟩
      · exact Or.inr ⟨piece :: init, name, blanks, rfl, given, blank⟩

/-- The slot of a path whose pieces end with a name, but for separators. -/
theorem slot_eq {init blanks : List String} (split : p.pieces = init ++ name :: blanks)
    (given : name ≠ "") (blank : ∀ b ∈ blanks, b = "") :
    fs.slot p = (do
      checkText p
      let dir ← fs.followAll (fs.start p) init
      let entries ← fs.dirAt dir
      return some ⟨dir, entries, name, decide (blanks ≠ [])⟩) := by
  have blanks' : ∀ b ∈ blanks.reverse, decide (b = "") = true := by simpa using blank
  have trimmed : (p.pieces.reverse.dropWhile (· = "")).reverse = init ++ [name] := by
    rw [split, List.reverse_append, List.reverse_cons, List.append_assoc,
      List.dropWhile_append_of_pos blanks']
    simp [given]
  have trailing : decide ((init ++ [name]).length < p.pieces.length) = decide (blanks ≠ []) := by
    simp [split, List.length_pos_iff]
  simp only [slot, trimmed, List.getLast?_concat, List.dropLast_concat, trailing]

theorem slot_of_dir {init blanks : List String} (readable : checkText p = .ok ())
    (split : p.pieces = init ++ name :: blanks) (given : name ≠ "") (blank : ∀ b ∈ blanks, b = "")
    (followed : fs.followAll (fs.start p) init = .ok dir)
    (here : fs.root.at? dir = some (.dir entries)) :
    fs.slot p = .ok (some ⟨dir, entries, name, decide (blanks ≠ [])⟩) := by
  rw [slot_eq split given blank]
  exact bind_eq_ok_iff.mpr ⟨(), readable, bind_eq_ok_iff.mpr ⟨dir, followed,
    bind_eq_ok_iff.mpr ⟨entries, dirAt_eq_ok_iff.mpr here, rfl⟩⟩⟩

theorem slot_of_blank (readable : checkText p = .ok ()) (blank : ∀ b ∈ p.pieces, b = "") :
    fs.slot p = .ok none := by
  have trimmed : (p.pieces.reverse ++ []).dropWhile (· = "") = [] :=
    List.dropWhile_append_of_pos (by simpa using blank)
  rw [List.append_nil] at trimmed
  simp only [slot, readable, trimmed]
  rfl

/-- A slot stands in a directory, behind the pieces before its name. -/
theorem slot_eq_some {slot : Slot} (found : fs.slot p = .ok (some slot)) :
    checkText p = .ok () ∧ fs.root.at? slot.dir = some (.dir slot.entries) ∧
      ∃ init blanks, p.pieces = init ++ slot.name :: blanks ∧ slot.name ≠ "" ∧
        (∀ b ∈ blanks, b = "") ∧ slot.trailing = decide (blanks ≠ []) ∧
        fs.followAll (fs.start p) init = .ok slot.dir := by
  have readable : checkText p = .ok () := by
    obtain ⟨⟨⟩, readable, -⟩ := bind_eq_ok_iff.mp found
    exact readable
  rcases pieces_cases p.pieces with blank | ⟨init, name, blanks, split, given, blank⟩
  · rw [slot_of_blank readable blank] at found
    cases found
  · rw [slot_eq split given blank] at found
    obtain ⟨-, -, found⟩ := bind_eq_ok_iff.mp found
    obtain ⟨dir, followed, found⟩ := bind_eq_ok_iff.mp found
    obtain ⟨entries, here, found⟩ := bind_eq_ok_iff.mp found
    cases found
    exact ⟨readable, dirAt_eq_ok_iff.mp here, init, blanks, split, given, blank, rfl, followed⟩

/-- A directory is made in a slot where nothing stands. -/
theorem makeDir_eq_ok (made : fs.makeDir p = .ok fs') :
    ∃ slot, fs.slot p = .ok (some slot) ∧ slot.name ≠ "." ∧ slot.name ≠ ".." ∧
      slot.name.utf8ByteSize ≤ maxName ∧ slot.entries.lookup slot.name = none ∧
      fs' = fs.put (slot.dir ++ [slot.name]) .emptyDir := by
  unfold makeDir at made
  obtain ⟨slot?, found, made⟩ := bind_eq_ok_iff.mp made
  cases slot? with
  | none => cases made
  | some slot =>
      simp only at made
      split at made
      · cases made
      · next named =>
          split at made
          · cases made
          · next small =>
              split at made
              · cases made
              · next free =>
                  cases made
                  exact ⟨slot, found, fun here => named (Or.inl here),
                    fun up => named (Or.inr up), Nat.not_lt.mp small,
                    Option.not_isSome_iff_eq_none.mp free, rfl⟩

/-- Making a directory touches no file. -/
theorem makeDir_changes (touched : List String → Prop) (made : fs.makeDir p = .ok fs') :
    Changes touched fs fs' := by
  obtain ⟨slot, found, -, -, -, free, rfl⟩ := makeDir_eq_ok made
  obtain ⟨-, here, -⟩ := slot_eq_some found
  exact Changes.refl.makeDir here free

/-- Making directories touches no file, also when it fails. -/
theorem createDirsWithin_changes (touched : List String → Prop) (levels : Nat) (fs : FileSystem)
    (p : Path) : Changes touched fs (createDirsWithin levels fs p).2 := by
  fun_induction createDirsWithin levels fs p with
  | case3 levels fs p given fs' made => exact makeDir_changes touched made
  | case5 levels fs p given missing parent above fault fs' failed ih =>
      rw [failed] at ih
      exact ih
  | case6 levels fs p given missing parent above fs' done fs'' made ih =>
      rw [done] at ih
      exact ih.trans (makeDir_changes touched made)
  | case7 levels fs p given missing parent above fs' done fault failed isDir ih =>
      rw [done] at ih
      exact ih
  | case8 levels fs p given missing parent above fs' done fault failed noDir ih =>
      rw [done] at ih
      exact ih
  | _ => exact .refl

theorem createParent_changes (touched : List String → Prop) (fs : FileSystem) (p : Path) :
    Changes touched fs (fs.createParent p).2 := by
  unfold createParent
  split
  · exact createDirsWithin_changes touched _ fs _
  · exact .refl

end FileSystem

end Graft
