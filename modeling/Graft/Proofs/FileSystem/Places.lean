import Graft.Proofs.FileSystem.Frame
import Graft.Proofs.Path.FileNames

/-!
# Where paths lead

The place that a path leads to depends on the directories only where the path has `..` in it.
Whatever they are, the last name of a path to a file is the name of the file, and a path without
`..` leads to its names, one below the other. `MayLeadTo` puts this down for a path and a place
without mention of a state, so that it can be compared with what is known of other paths.

A write touches no other place than those its path may lead to, and a file at another place is
found as it was.
-/

namespace Graft.FileSystem

open Graft.Path (IsName counts)

variable {touched : List String → Prop} {fs fs' before after : FileSystem} {p q : Path}
variable {place dir next cwd : List String} {entries : List (String × Entry)}
variable {name text piece : String} {pieces : List String} {e : Entry} {content : Content}

/-! ### Following pieces -/

theorem followAll_append (place pieces rest : List String) :
    fs.followAll place (pieces ++ rest) =
      fs.followAll place pieces >>= fun next => fs.followAll next rest := by
  induction pieces generalizing place with
  | nil => rfl
  | cons piece pieces ih =>
      rw [List.cons_append, followAll, followAll]
      cases fs.follow place piece with
      | error fault => rfl
      | ok next => exact ih next

theorem blank_cases (blank : counts piece = false) : piece = "" ∨ piece = "." := by
  simpa [counts, Decidable.or_iff_not_imp_left] using blank

/-- One step stays, goes up, or goes down to an entry. -/
theorem follow_eq_ok (followed : fs.follow place piece = .ok next) :
    ∃ entries, fs.root.at? place = some (.dir entries) ∧
      (counts piece = false ∧ next = place ∨
        piece = ".." ∧ next = place.dropLast ∨
        counts piece = true ∧ piece ≠ ".." ∧ piece.utf8ByteSize ≤ maxName ∧
          (entries.lookup piece).isSome ∧ next = place ++ [piece]) := by
  unfold follow at followed
  split at followed
  · cases followed
  · next entries here =>
      refine ⟨entries, dirAt_eq_ok_iff.mp here, ?_⟩
      split at followed
      · next blank =>
          cases followed
          refine Or.inl ⟨?_, rfl⟩
          rcases blank with rfl | rfl <;> rfl
      · next leads =>
          have counted : counts piece = true := by
            simpa [counts, not_or] using leads
          split at followed
          · next up =>
              cases followed
              exact Or.inr (Or.inl ⟨up, rfl⟩)
          · next notUp =>
              split at followed
              · cases followed
              · next short =>
                  split at followed
                  · next found =>
                      cases followed
                      exact Or.inr (Or.inr ⟨counted, notUp, Nat.not_lt.mp short, found, rfl⟩)
                  · cases followed

/-- A step that keeps within the names of entries. -/
theorem follow_entry (here : fs.root.at? place = some (.dir entries))
    (counted : counts piece = true) (notUp : piece ≠ "..") (short : piece.utf8ByteSize ≤ maxName)
    (found : (entries.lookup piece).isSome) : fs.follow place piece = .ok (place ++ [piece]) := by
  have leads : ¬ (piece = "" ∨ piece = ".") := by
    simpa [counts, not_or] using counted
  simp only [follow, dirAt_eq_ok_iff.mpr here, if_neg leads, if_neg notUp,
    if_neg (Nat.not_lt.mpr short), if_pos found]

theorem follow_blank (here : fs.root.at? place = some (.dir entries))
    (blank : counts piece = false) : fs.follow place piece = .ok place := by
  simp only [follow, dirAt_eq_ok_iff.mpr here, if_pos (blank_cases blank)]

/-- Pieces without `..` lead down their names, which are short enough. -/
theorem followAll_eq_ok (followed : fs.followAll place pieces = .ok next) :
    (∀ piece ∈ pieces, piece.utf8ByteSize ≤ maxName) ∧
      (".." ∉ pieces → next = place ++ pieces.filter counts) := by
  induction pieces generalizing place with
  | nil =>
      cases followed
      simp
  | cons piece pieces ih =>
      rw [followAll] at followed
      split at followed
      · cases followed
      · next here step =>
          obtain ⟨short, down⟩ := ih followed
          obtain ⟨entries, isDir, ⟨blank, rfl⟩ | ⟨rfl, rfl⟩ | ⟨counted, notUp, small, -, rfl⟩⟩ :=
            follow_eq_ok step
          · have small : piece.utf8ByteSize ≤ maxName := by
              rcases blank_cases blank with rfl | rfl <;> decide
            refine ⟨List.forall_mem_cons.mpr ⟨small, short⟩, ?_⟩
            intro noUp
            rw [List.filter_cons, blank]
            exact down fun up => noUp (List.mem_cons_of_mem _ up)
          · refine ⟨List.forall_mem_cons.mpr ⟨by decide, short⟩, ?_⟩
            intro noUp
            exact absurd List.mem_cons_self noUp
          · refine ⟨List.forall_mem_cons.mpr ⟨small, short⟩, ?_⟩
            intro noUp
            rw [down fun up => noUp (List.mem_cons_of_mem _ up), List.filter_cons, counted]
            simp

/-- Pieces that lead to a directory, or have a name at their end, are followed from a directory. -/
theorem dir_of_ends (there : fs.root.at? (place ++ pieces.filter counts) = some e)
    (ends : e.isDir = true ∨ ∃ name, pieces.getLast? = some name ∧ counts name = true) :
    ∃ entries, fs.root.at? place = some (.dir entries) := by
  cases lower : pieces.filter counts with
  | cons name names =>
      rw [lower] at there
      exact Entry.dir_of_at?_append there
  | nil =>
      rw [lower, List.append_nil] at there
      rcases ends with isDir | ⟨name, last, leads⟩
      · cases e with
        | dir entries => exact ⟨entries, there⟩
        | file content => cases isDir
      · have inside := List.mem_filter.mpr ⟨List.mem_of_getLast? last, leads⟩
        rw [lower] at inside
        cases inside

/-- Pieces without `..` that lead down to an entry can be followed. -/
theorem followAll_of_at? (noUp : ".." ∉ pieces)
    (short : ∀ piece ∈ pieces, piece.utf8ByteSize ≤ maxName)
    (there : fs.root.at? (place ++ pieces.filter counts) = some e)
    (ends : e.isDir = true ∨ ∃ name, pieces.getLast? = some name ∧ counts name = true) :
    fs.followAll place pieces = .ok (place ++ pieces.filter counts) := by
  induction pieces generalizing place with
  | nil => simp [followAll]
  | cons piece pieces ih =>
      have noUp' : ".." ∉ pieces := fun up => noUp (List.mem_cons_of_mem _ up)
      have short' := fun p member => short p (List.mem_cons_of_mem _ member)
      have ends' : pieces ≠ [] →
          e.isDir = true ∨ ∃ name, pieces.getLast? = some name ∧ counts name = true := by
        intro more
        rwa [List.getLast?_cons_of_ne_nil more] at ends
      obtain ⟨entries, here⟩ := dir_of_ends there ends
      rw [List.filter_cons] at there ⊢
      cases counted : counts piece with
      | true =>
          have whole : place ++ piece :: pieces.filter counts =
              (place ++ [piece]) ++ pieces.filter counts := List.append_cons ..
          rw [counted, if_pos rfl, whole] at there
          have found : (entries.lookup piece).isSome := by
            rw [Entry.at?_append] at there
            obtain ⟨e', first, -⟩ := Option.bind_eq_some_iff.mp there
            rw [← Entry.at?_concat here, first, Option.isSome_some]
          have notUp : piece ≠ ".." := fun up => noUp (up ▸ List.mem_cons_self)
          rw [followAll, follow_entry here counted notUp (short piece List.mem_cons_self) found,
            if_pos rfl, whole]
          cases pieces with
          | nil => simp [followAll]
          | cons second pieces => exact ih noUp' short' there (ends' (by simp))
      | false =>
          rw [counted, if_neg Bool.false_ne_true] at there
          rw [followAll, follow_blank here counted, if_neg Bool.false_ne_true]
          cases pieces with
          | nil => simp [followAll]
          | cons second pieces => exact ih noUp' short' there (ends' (by simp))

/-- What can be followed can be followed later. -/
theorem Keeps.followAll (kept : Keeps touched before after)
    (followed : before.followAll place pieces = .ok next) :
    after.followAll place pieces = .ok next := by
  induction pieces generalizing place with
  | nil => exact followed
  | cons piece pieces ih =>
      rw [FileSystem.followAll] at followed ⊢
      split at followed
      · cases followed
      · next here step =>
          have step' : after.follow place piece = .ok here := by
            obtain ⟨entries, isDir, way⟩ := follow_eq_ok step
            rcases way with ⟨blank, rfl⟩ | ⟨rfl, rfl⟩ | ⟨counted, notUp, small, found, rfl⟩
            all_goals obtain ⟨entries', isDir'⟩ := kept.dir _ _ isDir
            · exact follow_blank isDir' blank
            · simp [follow, dirAt_eq_ok_iff.mpr isDir']
            · refine follow_entry isDir' counted notUp small ?_
              rw [← Entry.at?_concat isDir']
              exact kept.isSome (by rwa [Entry.at?_concat isDir])
          rw [step']
          exact ih followed

/-- A separator at the end of a path to a directory makes no difference. -/
theorem followAll_dirPieces (followed : fs.followAll place p.pieces = .ok next) :
    fs.followAll place p.dirPieces = .ok next := by
  unfold Path.dirPieces
  split
  · next last =>
      obtain ⟨init, split⟩ := List.getLast?_eq_some_iff.mp last
      rw [split, followAll_append] at followed
      obtain ⟨dir, before, followed⟩ := bind_eq_ok_iff.mp followed
      rw [split, List.dropLast_concat, before]
      rw [followAll] at followed
      split at followed
      · cases followed
      · next here step =>
          cases followed
          obtain ⟨entries, isDir, -⟩ := follow_eq_ok step
          rw [follow_blank isDir rfl] at step
          exact step
  · exact followed

/-- Names of entries lead down from the place of a path. -/
theorem resolve_below {names : List String} (resolved : fs.resolve p = .ok place)
    (named : ∀ name ∈ names, IsName name ∧ name.utf8ByteSize ≤ maxName)
    (there : fs.root.at? (place ++ names) = some e)
    (readable : checkText (p.below names) = .ok ()) :
    fs.resolve (p.below names) = .ok (place ++ names) := by
  cases names with
  | nil => rwa [List.append_nil]
  | cons first rest =>
      have steps : ∀ name ∈ first :: rest, Path.IsStep name := fun name member =>
        (named name member).1.toIsStep
      obtain ⟨⟨⟩, -, followed⟩ := bind_eq_ok_iff.mp resolved
      have counted : (first :: rest).filter counts = first :: rest :=
        List.filter_eq_self.mpr fun name member => (steps name member).counts
      have noUp : ".." ∉ first :: rest :=
        Path.noUp_of_isName fun name member => (named name member).1
      have down : fs.followAll place (first :: rest) = .ok (place ++ (first :: rest)) := by
        have ends : ∃ name, (first :: rest).getLast? = some name ∧ counts name = true := by
          have last := List.getLast?_eq_some_getLast (List.cons_ne_nil first rest)
          exact ⟨_, last, (steps _ (List.mem_of_getLast? last)).counts⟩
        have := followAll_of_at? noUp (fun name member => (named name member).2)
          (by rwa [counted]) (Or.inr ends)
        rwa [counted] at this
      refine bind_eq_ok_iff.mpr ⟨(), readable, ?_⟩
      rw [start, Path.isAbsolute_below steps, Path.pieces_below steps (by simp), followAll_append]
      exact bind_eq_ok_iff.mpr ⟨place, followAll_dirPieces followed, down⟩

/-- A path without `..` leads to its names. -/
theorem place_of_resolve (resolved : fs.resolve p = .ok place) (noUp : ".." ∉ p.pieces) :
    place = fs.start p ++ p.names := by
  obtain ⟨⟨⟩, -, followed⟩ := bind_eq_ok_iff.mp resolved
  exact (followAll_eq_ok followed).2 noUp

/-! ### The place of a file -/

/-- What the text of a path says about the places that it can lead to, if there is a file or
nothing at them. -/
structure MayLeadTo (cwd : List String) (p : Path) (place : List String) : Prop where
  readable : checkText p = .ok ()
  short : ∀ piece ∈ p.pieces, piece.utf8ByteSize ≤ maxName
  last : ∃ name, IsName name ∧ p.pieces.getLast? = some name ∧ place.getLast? = some name
  direct : ".." ∉ p.pieces → place = (if p.isAbsolute then [] else cwd) ++ p.names

theorem MayLeadTo.fileName? (leads : MayLeadTo cwd p place) : place.getLast? = p.fileName? := by
  obtain ⟨name, isName, last, same⟩ := leads.last
  obtain ⟨init, split⟩ := List.getLast?_eq_some_iff.mp last
  rw [same, eq_comm, Path.fileName?_eq_some_iff]
  refine ⟨?_, isName.notUp⟩
  rw [Path.names, split, List.filter_append]
  simp [isName.counts]

/-- The pieces before a name lead to the directory of its place. -/
theorem mayLeadTo_of_followAll {init : List String} (readable : checkText p = .ok ())
    (split : p.pieces = init ++ [name]) (isName : IsName name) (short : name.utf8ByteSize ≤ maxName)
    (followed : fs.followAll (fs.start p) init = .ok dir) :
    MayLeadTo fs.cwd p (dir ++ [name]) := by
  obtain ⟨others, down⟩ := followAll_eq_ok followed
  refine ⟨readable, ?_, ⟨name, isName, by simp [split], by simp⟩, ?_⟩
  · intro piece member
    rw [split] at member
    rcases List.mem_append.mp member with first | last
    · exact others piece first
    · rwa [List.mem_singleton.mp last]
  · intro noUp
    rw [split] at noUp
    rw [down fun up => noUp (List.mem_append_left _ up), Path.names, split, List.filter_append]
    simp [isName.counts, start]

/-- A file is opened in a slot that holds a file or nothing. -/
theorem openFile_eq_ok_iff {content? : Option Content} :
    fs.openFile p = .ok (place, content?) ↔
      ∃ slot, fs.slot p = .ok (some slot) ∧ slot.name ≠ "." ∧ slot.name ≠ ".." ∧
        slot.trailing = false ∧ slot.name.utf8ByteSize ≤ maxName ∧
        place = slot.dir ++ [slot.name] ∧
        slot.entries.lookup slot.name = content?.map .file := by
  unfold openFile
  constructor
  · intro opened
    obtain ⟨slot?, found, opened⟩ := bind_eq_ok_iff.mp opened
    cases slot? with
    | none => cases opened
    | some slot =>
        simp only at opened
        split at opened
        · cases opened
        · next named =>
            split at opened
            · cases opened
            · next plain =>
                split at opened
                · cases opened
                · next small =>
                    refine ⟨slot, found, fun here => named (Or.inl here),
                      fun up => named (Or.inr up), Bool.eq_false_iff.mpr plain,
                      Nat.not_lt.mp small, ?_⟩
                    split at opened
                    · cases opened
                    · next content taken =>
                        cases opened
                        exact ⟨rfl, taken⟩
                    · next free =>
                        cases opened
                        exact ⟨rfl, free⟩
  · rintro ⟨slot, found, notHere, notUp, plain, small, rfl, taken⟩
    refine bind_eq_ok_iff.mpr ⟨some slot, found, ?_⟩
    have named : ¬ (slot.name = "." ∨ slot.name = "..") := not_or.mpr ⟨notHere, notUp⟩
    cases content? with
    | none => simp [named, plain, Nat.not_lt.mpr small, taken, pure, Except.pure]
    | some content => simp [named, plain, Nat.not_lt.mpr small, taken, pure, Except.pure]

/-- A file that is opened is where its path may lead, in a directory, and not in the place of
another one. -/
theorem openFile_eq_ok {content? : Option Content}
    (opened : fs.openFile p = .ok (place, content?)) :
    MayLeadTo fs.cwd p place ∧ ∃ dir name entries, place = dir ++ [name] ∧
      fs.root.at? dir = some (.dir entries) ∧ entries.lookup name = content?.map .file := by
  obtain ⟨slot, found, notHere, notUp, plain, small, rfl, taken⟩ := openFile_eq_ok_iff.mp opened
  obtain ⟨readable, here, init, blanks, pieces, given, -, trailing, followed⟩ :=
    slot_eq_some found
  have direct : blanks = [] := by simpa [trailing] using plain
  have split : p.pieces = init ++ [slot.name] := by rw [pieces, direct]
  have whole : '/' ∉ slot.name.toList := Path.whole_of_mem_pieces (p := p) (by simp [split])
  have leads := mayLeadTo_of_followAll readable split ⟨⟨given, notHere, whole⟩, notUp⟩ small
    followed
  exact ⟨leads, slot.dir, slot.name, slot.entries, rfl, here, taken⟩

/-- The place at which a file is found is one that its path may lead to. -/
theorem mayLeadTo_of_resolve (resolved : fs.resolve p = .ok place)
    (there : fs.root.at? place = some (.file content)) : MayLeadTo fs.cwd p place := by
  obtain ⟨⟨⟩, readable, followed⟩ := bind_eq_ok_iff.mp resolved
  rcases List.eq_nil_or_concat p.pieces with none | ⟨init, name, split⟩
  · exact absurd none (Path.pieces_ne_nil p)
  · rw [List.concat_eq_append] at split
    rw [split, followAll_append] at followed
    obtain ⟨dir, before, followed⟩ := bind_eq_ok_iff.mp followed
    rw [followAll] at followed
    split at followed
    · cases followed
    · next last step =>
        cases followed
        obtain ⟨entries, isDir, ⟨-, rfl⟩ | ⟨-, rfl⟩ | ⟨counted, notUp, small, -, rfl⟩⟩ :=
          follow_eq_ok step
        · rw [there] at isDir
          cases isDir
        · obtain ⟨entries', above⟩ := Entry.dir_of_dropLast isDir
          rw [there] at above
          cases above
        · have inside : name ∈ p.names := List.mem_filter.mpr ⟨by simp [split], counted⟩
          exact mayLeadTo_of_followAll readable split ⟨Path.isStep_of_mem_names inside, notUp⟩
            small before

/-- A path without `..` leads to a file at its place. -/
theorem resolve_of_mayLeadTo (leads : MayLeadTo fs.cwd p place) (noUp : ".." ∉ p.pieces)
    (there : fs.root.at? place = some (.file content)) : fs.resolve p = .ok place := by
  obtain ⟨name, isName, last, -⟩ := leads.last
  rw [leads.direct noUp] at there ⊢
  have followed := followAll_of_at? noUp leads.short there (Or.inr ⟨name, last, isName.counts⟩)
  exact bind_eq_ok_iff.mpr ⟨(), leads.readable, followed⟩

/-! ### Writing -/

/-- A file that was opened can get another content, and only its place is touched. -/
theorem changes_put_opened {content? : Option Content}
    (opened : fs.openFile p = .ok (place, content?)) (new : Content) :
    Changes (· = place) fs (fs.put place (.file new)) := by
  obtain ⟨-, dir, name, entries, rfl, here, found⟩ := openFile_eq_ok opened
  have fits : entries.lookup name = none ∨ ∃ old, entries.lookup name = some (.file old) := by
    cases content? with
    | none => exact Or.inl found
    | some old => exact Or.inr ⟨old, found⟩
  exact Changes.refl.setFile new here fits rfl

/-- A file that was opened stands where its path may lead. -/
theorem changes_of_openFile {content? : Option Content}
    (opened : fs.openFile p = .ok (place, content?)) (new : Content) :
    Changes (MayLeadTo fs.cwd p) fs (fs.put place (.file new)) :=
  (changes_put_opened opened new).mono fun _ same => same ▸ (openFile_eq_ok opened).1

theorem write_changes (written : fs.write p text = .ok fs') :
    Changes (MayLeadTo fs.cwd p) fs fs' := by
  obtain ⟨⟨place, content?⟩, opened, written⟩ := bind_eq_ok_iff.mp written
  cases written
  exact changes_of_openFile opened _

theorem append_changes (written : fs.append p text = .ok fs') :
    Changes (MayLeadTo fs.cwd p) fs fs' := by
  obtain ⟨⟨place, content?⟩, opened, written⟩ := bind_eq_ok_iff.mp written
  cases written
  exact changes_of_openFile opened _

/-! ### Reading -/

theorem entry_eq_ok_iff : fs.entry p = .ok e ↔
    ∃ place, fs.resolve p = .ok place ∧ fs.root.at? place = some e := by
  unfold entry
  cases fs.resolve p with
  | error fault => simp
  | ok place =>
      cases there : fs.root.at? place with
      | none => simp [there]
      | some found => simp [there]

theorem isFile_iff : fs.isFile p = true ↔ ∃ content, fs.entry p = .ok (.file content) := by
  unfold isFile
  split
  · next content found => simp [found]
  · next other =>
      simp only [Bool.false_eq_true, false_iff, not_exists]
      exact other

theorem readText_of_resolve (resolved : fs.resolve p = .ok place)
    (there : fs.root.at? place = some (.file (.text text))) : fs.readText p = .ok text := by
  rw [readText, entry_eq_ok_iff.mpr ⟨place, resolved, there⟩]

/-- A file at a place that is not touched is found as it was. -/
theorem Keeps.entry (kept : Keeps touched before after) (resolved : before.resolve p = .ok place)
    (there : before.root.at? place = some (.file content)) (untouched : ¬ touched place) :
    after.entry p = before.entry p := by
  obtain ⟨content', there', same⟩ := kept.file place content there
  obtain ⟨⟨⟩, readable, followed⟩ := bind_eq_ok_iff.mp resolved
  have resolved' : after.resolve p = .ok place := by
    refine bind_eq_ok_iff.mpr ⟨(), readable, ?_⟩
    rw [start, kept.cwd]
    exact kept.followAll followed
  rw [same untouched] at there'
  rw [entry_eq_ok_iff.mpr ⟨place, resolved', there'⟩, entry_eq_ok_iff.mpr ⟨place, resolved, there⟩]

/-- At a path whose place is not touched the same file is found, or none. -/
theorem Changes.entry_file_iff (changes : Changes touched before after) (noUp : ".." ∉ p.pieces)
    (untouched : ∀ place, MayLeadTo before.cwd p place → ¬ touched place) :
    after.entry p = .ok (.file content) ↔ before.entry p = .ok (.file content) := by
  constructor
  · intro found
    obtain ⟨place, resolved, there⟩ := entry_eq_ok_iff.mp found
    have leads := mayLeadTo_of_resolve resolved there
    rw [changes.keeps.cwd] at leads
    have there' := changes.file_of_file (untouched place leads) there
    exact entry_eq_ok_iff.mpr ⟨place, resolve_of_mayLeadTo leads noUp there', there'⟩
  · intro found
    obtain ⟨place, resolved, there⟩ := entry_eq_ok_iff.mp found
    rw [changes.keeps.entry resolved there
      (untouched place (mayLeadTo_of_resolve resolved there)), found]

/-- A text that is refused is refused in every state. -/
theorem entry_of_unreadable {fault : FileFault} (unreadable : checkText p = .error fault)
    (fs : FileSystem) : fs.entry p = .error fault := by
  simp only [FileSystem.entry, resolve, unreadable]
  rfl

/-! ### The current directory -/

@[simp] theorem isAbsolute_cwdPath (fs : FileSystem) : fs.cwdPath.isAbsolute = true := by
  simp [cwdPath, Path.isAbsolute]

theorem isAbsolute_absolute (fs : FileSystem) (p : Path) :
    (Path.absolute fs.cwdPath p).isAbsolute = true :=
  Path.isAbsolute_absolute fs.isAbsolute_cwdPath p

theorem names_cwdPath (named : ∀ name ∈ fs.cwd, IsName name) : fs.cwdPath.names = fs.cwd := by
  have whole : (Path.ofPieces true fs.cwd).names = fs.cwd :=
    Path.names_ofPieces_of_steps fun name member => (named name member).toIsStep
  exact whole

end Graft.FileSystem
