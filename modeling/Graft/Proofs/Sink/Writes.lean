import Graft.Proofs.FileSystem.Ways
import Graft.Sink

/-!
# Writes through a sink

A write through a sink changes the file of its destination only. A write of a text that succeeds
has made the directory of the file, opened the file and set its content, `write_eq_ok_of_path?`, and
what the files are like afterwards follows from that, `files_of_write`.

`Writes` is a row of writes that succeed. After writes to files of their own, at different places,
every file holds the text that was written to it, and the same writes can be made again and change
nothing. Writes to one shared file leave all their texts in it, and made again, through a sink that
has not written to it yet, they rebuild the file as it was.
-/

namespace Graft

open FileSystem (AgreesOff Changes MadeWithin MayLeadTo OnWay Ready)

namespace Destination

variable {d d' : Destination} {p q : Path}

/-- The places that a destination may lead to. -/
def MayTouch (cwd : List String) (d : Destination) (place : List String) : Prop :=
  ∃ p, d.path? = some p ∧ MayLeadTo cwd p place

/-- Whether two destinations are the same, however their paths are spelled. -/
def same : Destination → Destination → Bool
  | .stream, .stream => true
  | .file p, .file q => p.same q
  | .append p, .append q => p.same q
  | _, _ => false

theorem same_iff (path : d.path? = some p) (path' : d'.path? = some q) :
    d.same d' = true ↔ p.same q = true ∧ d.kind = d'.kind := by
  cases d <;> cases d' <;> simp_all [same, path?, kind]

theorem path?_of_same (same : d.same d' = true) (path : d'.path? = some q) :
    ∃ p, d.path? = some p := by
  cases d with
  | stream =>
      cases d' with
      | stream => cases path
      | file _ => cases same
      | append _ => cases same
  | file p => exact ⟨p, rfl⟩
  | append p => exact ⟨p, rfl⟩

theorem same_refl (d : Destination) : d.same d = true := by
  cases d <;> simp [same, Path.same]

/-- Destinations that are the same are the same as the same others. -/
theorem same_congr (same : d.same d' = true) (other : Destination) :
    other.same d = other.same d' := by
  cases d <;> cases d' <;> cases other <;> simp_all [Destination.same, Path.same]

end Destination

namespace Sink.State

variable {s : Sink.State} {d : Destination} {p q : Path} {text : String}
variable {fs files files' : FileSystem} {made : Except FileFault Unit}

theorem changes_of_createParent (touched : List String → Prop)
    (parent : fs.createParent p = (made, files)) : Changes touched fs files := by
  have changes := FileSystem.createParent_changes touched fs p
  rwa [parent] at changes

/-- A file is written after its directory has been made. -/
theorem changes_of_createParent_of_write (parent : fs.createParent p = (made, files))
    (written : Changes (MayLeadTo files.cwd p) files files') :
    Changes (MayLeadTo fs.cwd p) fs files' := by
  have changes := changes_of_createParent (MayLeadTo fs.cwd p) parent
  rw [changes.keeps.cwd] at written
  exact changes.trans written

theorem writeFile_changes (s : Sink.State) {write : FileSystem → Except FileFault FileSystem}
    (writes : ∀ fs fs', write fs = .ok fs' → Changes (MayLeadTo fs.cwd p) fs fs') :
    Changes (MayLeadTo s.files.cwd p) s.files (s.writeFile p write).2.files := by
  unfold writeFile
  split
  · next parent => exact changes_of_createParent _ parent
  · next parent =>
      split
      · exact changes_of_createParent _ parent
      · next written => exact changes_of_createParent_of_write parent (writes _ _ written)

theorem writeText_changes (s : Sink.State) (d : Destination) (text : String) :
    Changes (d.MayTouch s.files.cwd) s.files (s.writeText d text).2.files := by
  have wider : ∀ {p files'}, d.path? = some p →
      Changes (MayLeadTo s.files.cwd p) s.files files' →
      Changes (d.MayTouch s.files.cwd) s.files files' := fun isFile changes =>
    changes.mono fun _ leads => ⟨_, isFile, leads⟩
  cases d with
  | stream =>
      rw [writeText]
      split <;> exact .refl
  | file p => exact wider rfl (s.writeFile_changes fun _ _ => FileSystem.write_changes)
  | append p =>
      apply wider rfl
      rw [writeText]
      split
      · exact s.writeFile_changes fun _ _ => FileSystem.append_changes
      · split
        · next parent => exact changes_of_createParent _ parent
        · next parent =>
            simp only
            split
            · exact changes_of_createParent _ parent
            · next written =>
                exact changes_of_createParent_of_write parent (FileSystem.write_changes written)

/-- A write through a sink touches the file of its destination only. -/
theorem write_changes (s : Sink.State) (d : Destination) (text : String) :
    Changes (d.MayTouch s.files.cwd) s.files (s.write d text).2.files := by
  have changes := s.writeText_changes d text
  unfold write
  split
  · exact .refl
  · split
    · next result => rwa [result] at changes
    · next result => rwa [result] at changes

/-! ### One write -/

variable {s' : Sink.State} {bytes : Nat} {place : List String}

theorem write_eq_ok_iff (given : text ≠ "") : s.write d text = (.ok bytes, s') ↔
    s.writeText d text = (.ok (), s') ∧ bytes = text.utf8ByteSize := by
  rw [write, if_neg given]
  split
  · next result => simp [result]
  · next result =>
      simp only [result, Prod.mk.injEq, Except.ok.injEq, true_and]
      exact ⟨fun ⟨size, same⟩ => ⟨same, size.symm⟩, fun ⟨same, size⟩ => ⟨size.symm, same⟩⟩

theorem bytes_of_write (written : s.write d text = (.ok bytes, s')) :
    bytes = text.utf8ByteSize := by
  by_cases empty : text = ""
  · rw [write, if_pos empty] at written
    cases written
    rw [empty]
    rfl
  · exact ((write_eq_ok_iff empty).mp written).2

/-! ### A write to a file -/

/-- What a write leaves in a file. -/
def left (s : Sink.State) (d : Destination) (text : String) (content? : Option Content) : Content :=
  match d with
  | .append p =>
    if s.sink.hasAppended p then (content?.getD (.text "")).append ("\n" ++ text) else .text text
  | _ => .text text

theorem hasAppended_of_same (noted : s.sink.hasAppended p = true) (same : p.same q = true) :
    s.sink.hasAppended q = true := by
  obtain ⟨r, member, here⟩ := List.any_eq_true.mp noted
  refine List.any_eq_true.mpr ⟨r, member, ?_⟩
  simp_all [Path.same]

theorem writeFile_eq_ok {write : FileSystem → Except FileFault FileSystem}
    (written : s.writeFile p write = (.ok (), s')) :
    ∃ files files', s.files.createParent p = (.ok (), files) ∧ write files = .ok files' ∧
      s' = { s with files := files' } := by
  rw [writeFile] at written
  split at written
  · cases written
  · next files parent =>
      split at written
      · cases written
      · next files' wrote =>
          cases written
          exact ⟨files, files', parent, wrote, rfl⟩

/-- A text is written by making the directory of the file, opening it and setting its content, and
a shared file is noted. -/
theorem write_eq_ok_of_path? (given : text ≠ "") (path : d.path? = some p)
    (written : s.write d text = (.ok bytes, s')) :
    ∃ files place content?, s.files.createParent p = (.ok (), files) ∧
      files.openFile p = .ok (place, content?) ∧
      s'.files = files.put place (.file (s.left d text content?)) ∧
      s'.sink.stream = s.sink.stream ∧
      ∀ q, s'.sink.hasAppended q = (s.sink.hasAppended q || d.same (.append q)) := by
  obtain ⟨written, -⟩ := (write_eq_ok_iff given).mp written
  cases d with
  | stream => cases path
  | file r =>
      cases path
      obtain ⟨files, files', parent, wrote, rfl⟩ := writeFile_eq_ok written
      obtain ⟨⟨place, content?⟩, opened, wrote⟩ := bind_eq_ok_iff.mp wrote
      cases wrote
      exact ⟨files, place, content?, parent, opened, rfl, rfl, by simp [Destination.same]⟩
  | append r =>
      cases path
      rw [writeText] at written
      split at written
      · next noted =>
          obtain ⟨files, files', parent, wrote, rfl⟩ := writeFile_eq_ok written
          obtain ⟨⟨place, content?⟩, opened, wrote⟩ := bind_eq_ok_iff.mp wrote
          cases wrote
          refine ⟨files, place, content?, parent, opened, by simp [left, noted], rfl, ?_⟩
          intro q
          cases same : p.same q with
          | true => simp [Destination.same, same, hasAppended_of_same noted same]
          | false => simp [Destination.same, same]
      · next fresh =>
          split at written
          · cases written
          · next files parent =>
              simp only at written
              split at written
              · cases written
              · next wrote =>
                  cases written
                  obtain ⟨⟨place, content?⟩, opened, wrote⟩ := bind_eq_ok_iff.mp wrote
                  cases wrote
                  exact ⟨files, place, content?, parent, opened, by simp [left, fresh], rfl,
                    by simp [noteAppended, hasAppended, Destination.same]⟩

/-- A write of a text to a file leaves the file ready and changes nothing else, but for directories
on the way. -/
theorem files_of_write (given : text ≠ "") (path : d.path? = some p)
    (written : s.write d text = (.ok bytes, s')) :
    ∃ place content?, Ready s'.files p place ∧
      s'.files.root.at? place = some (.file (s.left d text content?)) ∧
      (∀ content, s.files.root.at? place = some (.file content) → content? = some content) ∧
      Changes (· = place) s.files s'.files ∧ MadeWithin (OnWay s'.files p) s.files s'.files := by
  obtain ⟨files, place, content?, parent, opened, same, -, -⟩ :=
    write_eq_ok_of_path? given path written
  rw [same]
  have first := changes_of_createParent (fun _ => False) parent
  have changes := FileSystem.changes_put_opened opened (s.left d text content?)
  refine ⟨place, content?, FileSystem.ready_of_openFile parent opened _,
    FileSystem.at?_put_opened opened _, ?_, (first.mono fun _ => False.elim).trans changes, ?_⟩
  · intro content there
    rw [← first.file_iff not_false] at there
    obtain ⟨-, dir, name, entries, rfl, here, taken⟩ := FileSystem.openFile_eq_ok opened
    rw [Entry.at?_concat here, taken] at there
    cases content? <;> simp_all
  · have made := FileSystem.createParent_made s.files p
    rw [parent] at made
    exact (made.mono fun _ onWay => onWay.keeps changes.keeps).trans
      (FileSystem.made_put_opened _ opened _)

theorem ready_of_write_file (given : text ≠ "")
    (written : s.write (.file p) text = (.ok bytes, s')) :
    ∃ place, Ready s'.files p place ∧ s'.files.root.at? place = some (.file (.text text)) := by
  obtain ⟨place, content?, ready, there, -⟩ := files_of_write given rfl written
  exact ⟨place, ready, there⟩

/-- The places that a write touches are those that its path then leads to. -/
theorem changes_of_write (path : d.path? = some p) (written : s.write d text = (.ok bytes, s')) :
    Changes (fun place => s'.files.resolve p = .ok place) s.files s'.files := by
  by_cases empty : text = ""
  · rw [write, if_pos empty] at written
    cases written
    exact .refl
  · obtain ⟨place, content?, ready, -, -, changes, -⟩ := files_of_write empty path written
    exact changes.mono fun _ same => same ▸ ready.resolve

/-- A file that is ready gets the text and nothing else happens. -/
theorem write_file (ready : Ready s.files p place) (given : text ≠ "") :
    s.write (.file p) text =
      (.ok text.utf8ByteSize, { s with files := s.files.put place (.file (.text text)) }) := by
  rw [write_eq_ok_iff given, writeText, writeFile, ready.parent]
  simp only [ready.write text, and_self]

/-! ### Writes to a shared file -/

theorem hasAppended_noteAppended (s : Sink.State) (p : Path) :
    (s.noteAppended p).sink.hasAppended p = true := by
  simp [noteAppended, hasAppended, Path.same]

theorem ready_of_write_append (fresh : s.sink.hasAppended p = false) (given : text ≠ "")
    (written : s.write (.append p) text = (.ok bytes, s')) :
    s'.sink.hasAppended p = true ∧ ∃ place, Ready s'.files p place ∧
      s'.files.root.at? place = some (.file (.text text)) := by
  obtain ⟨place, content?, ready, there, -⟩ := files_of_write given rfl written
  obtain ⟨-, -, -, -, -, -, -, noted⟩ := write_eq_ok_of_path? given rfl written
  rw [left, fresh, if_neg Bool.false_ne_true] at there
  exact ⟨by rw [noted, Destination.same_refl, Bool.or_true], place, ready, there⟩

/-- The first text for a shared file that is ready replaces what it held. -/
theorem write_append_first (fresh : s.sink.hasAppended p = false) (ready : Ready s.files p place)
    (given : text ≠ "") :
    s.write (.append p) text = (.ok text.utf8ByteSize,
      State.noteAppended { s with files := s.files.put place (.file (.text text)) } p) := by
  rw [write_eq_ok_iff given, writeText, if_neg (by simp [fresh]), ready.parent]
  simp only [ready.write text, and_true]
  rfl

/-- A further text is added behind a line feed. -/
theorem write_append_more {before : String} (noted : s.sink.hasAppended p = true)
    (ready : Ready s.files p place)
    (there : s.files.root.at? place = some (.file (.text before))) (given : text ≠ "") :
    s.write (.append p) text = (.ok text.utf8ByteSize,
      { s with files := s.files.put place (.file (.text (before ++ ("\n" ++ text)))) }) := by
  rw [write_eq_ok_iff given, writeText, if_pos noted, writeFile, ready.parent]
  simp only [ready.append there, Content.append, and_self]

/-! ### Rows of writes -/

/-- Writes that succeed, one after the other. -/
def Writes : Sink.State → List (Destination × String) → Sink.State → Prop
  | s, [], s' => s' = s
  | s, (d, text) :: rest, s'' =>
    ∃ s', s.write d text = (.ok text.utf8ByteSize, s') ∧ Writes s' rest s''

variable {ws : List (Destination × String)} {texts : List String} {a b : Sink.State} {sink : Sink}
variable {before : String}

theorem writes_unique (first : Writes s ws a) (second : Writes s ws b) : a = b := by
  induction ws generalizing s with
  | nil => exact first.trans second.symm
  | cons w rest ih =>
      obtain ⟨s', written, first⟩ := first
      obtain ⟨s'', written', second⟩ := second
      rw [written] at written'
      cases written'
      exact ih first second

theorem writes_append_iff {more : List (Destination × String)} :
    Writes s (ws ++ more) b ↔ ∃ mid, Writes s ws mid ∧ Writes mid more b := by
  induction ws generalizing s with
  | nil => exact ⟨fun writes => ⟨s, rfl, writes⟩, fun ⟨mid, same, writes⟩ => same ▸ writes⟩
  | cons w rest ih =>
      simp only [List.cons_append, Writes, ih]
      constructor
      · rintro ⟨next, written, mid, first, second⟩
        exact ⟨mid, ⟨next, written, first⟩, second⟩
      · rintro ⟨mid, ⟨next, written, first⟩, second⟩
        exact ⟨next, written, mid, first, second⟩

/-- The row of writes of texts to one destination. -/
abbrev row (d : Destination) (texts : List String) : List (Destination × String) :=
  texts.map fun text => (d, text)

/-- A text, if there is something to write. -/
def nonempty (text : String) : List String := if text = "" then [] else [text]

theorem mem_nonempty_iff {written : String} :
    text ∈ nonempty written ↔ text = written ∧ text ≠ "" := by
  unfold nonempty
  split
  · next empty => simp [empty]
  · next given =>
      rw [List.mem_singleton]
      exact ⟨fun same => ⟨same, same ▸ given⟩, fun same => same.1⟩

theorem writes_nonempty_iff : Writes s (row d (nonempty text)) s' ↔
    s.write d text = (.ok text.utf8ByteSize, s') := by
  unfold nonempty
  split
  · next empty =>
      rw [write, if_pos empty, empty, Prod.mk.injEq]
      exact ⟨fun same => ⟨rfl, same.symm⟩, fun ⟨_, same⟩ => same.symm⟩
  · constructor
    · rintro ⟨next, written, rfl⟩
      exact written
    · exact fun written => ⟨s', written, rfl⟩

/-- Writes change the files of their destinations only. -/
theorem Writes.changes (writes : Writes s ws s') :
    Changes (fun place => ∃ w ∈ ws, w.1.MayTouch s.files.cwd place) s.files s'.files := by
  induction ws generalizing s with
  | nil =>
      rw [writes]
      exact .refl
  | cons w rest ih =>
      obtain ⟨next, written, writes⟩ := writes
      have first := s.write_changes w.1 w.2
      rw [written] at first
      have others := ih writes
      rw [first.keeps.cwd] at others
      refine (first.mono fun place touched => ⟨w, List.mem_cons_self, touched⟩).trans
        (others.mono fun place touched => ?_)
      obtain ⟨w', member, touched⟩ := touched
      exact ⟨w', List.mem_cons_of_mem _ member, touched⟩

/-- A write makes directories only on the way of the file that it writes. -/
theorem write_dirs (written : s.write d text = (.ok bytes, s')) :
    MadeWithin (fun place => ∃ p, d.path? = some p ∧ OnWay s'.files p place ∧
      ∃ target, Ready s'.files p target) s.files s'.files := by
  by_cases empty : text = ""
  · rw [write, if_pos empty] at written
    cases written
    exact .refl _ _
  · cases path : d.path? with
    | some p =>
        obtain ⟨target, -, ready, -, -, -, made⟩ := files_of_write empty path written
        exact made.mono fun place onWay => ⟨p, rfl, onWay, target, ready⟩
    | none =>
        obtain rfl : d = .stream := by cases d <;> first | rfl | cases path
        obtain ⟨written, -⟩ := (write_eq_ok_iff empty).mp written
        rw [writeText] at written
        split at written
        · cases written
        · cases written
          exact .refl _ _

/-- Writes make directories only on the ways of the files that they write. -/
theorem Writes.dirs (writes : Writes s ws s') :
    MadeWithin (fun place => ∃ w ∈ ws, ∃ p, w.1.path? = some p ∧ OnWay s'.files p place ∧
      ∃ target, Ready s'.files p target) s.files s'.files := by
  induction ws generalizing s with
  | nil =>
      rw [writes]
      exact .refl _ _
  | cons w rest ih =>
      obtain ⟨next, written, writes⟩ := writes
      refine ((write_dirs written).mono ?_).trans ((ih writes).mono ?_)
      · rintro place ⟨p, path, onWay, target, ready⟩
        exact ⟨w, List.mem_cons_self, p, path, onWay.keeps writes.changes.keeps, target,
          ready.keeps writes.changes.keeps⟩
      · rintro place ⟨w', member, made⟩
        exact ⟨w', List.mem_cons_of_mem _ member, made⟩

/-- A write to a file of its own along a direct path changes what stands on the way only. -/
theorem write_agreesOff (s : Sink.State) (direct : p.Direct) (text : String) :
    AgreesOff p.names s.files (s.write (.file p) text).2.files := by
  have changed : AgreesOff p.names s.files (s.writeText (.file p) text).2.files := by
    have parent := FileSystem.createParent_agreesOff s.files direct
    rw [writeText, writeFile]
    split
    · next failed => rwa [failed] at parent
    · next made =>
        rw [made] at parent
        split
        · exact parent
        · next written => exact parent.trans (FileSystem.write_agreesOff direct written)
  unfold write
  split
  · exact .refl _ _
  · split
    · next result => rwa [result] at changed
    · next result => rwa [result] at changed

/-- Writes along direct paths change what stands on their ways only. -/
theorem Writes.at?_of_direct (writes : Writes s ws s')
    (off : ∀ w ∈ ws, ∃ p, w.1 = .file p ∧ p.Direct ∧ ¬ place <+: p.names) :
    s'.files.root.at? place = s.files.root.at? place := by
  induction ws generalizing s with
  | nil => rw [writes]
  | cons w rest ih =>
      obtain ⟨next, written, writes⟩ := writes
      obtain ⟨p, path, direct, aside⟩ := off w List.mem_cons_self
      have first := s.write_agreesOff direct w.2
      rw [← path, written] at first
      exact (ih writes fun w inside => off w (List.mem_cons_of_mem _ inside)).trans
        (first place aside)

/-- Writes to one file touch the place that its path then leads to. -/
theorem Writes.changes_resolved (writes : Writes s (row (.file p) texts) s') :
    Changes (fun place => s'.files.resolve p = .ok place) s.files s'.files := by
  induction texts generalizing s with
  | nil =>
      rw [writes]
      exact .refl
  | cons text rest ih =>
      obtain ⟨next, written, writes⟩ := writes
      have first := changes_of_write rfl written
      have others := ih writes
      exact (first.mono fun place resolved => others.keeps.resolve resolved).trans others

/-- Two destinations that cannot be the same file. -/
def Apart (cwd : List String) (d d' : Destination) : Prop :=
  ∀ place, d.MayTouch cwd place → ¬ d'.MayTouch cwd place

/-- After writes to different files every file is ready and holds its text. -/
theorem Writes.ready_of_files (writes : Writes s ws s') (own : ∀ w ∈ ws, ∃ p, w.1 = .file p)
    (given : ∀ w ∈ ws, w.2 ≠ "")
    (apart : ws.Pairwise fun w w' => Apart s.files.cwd w.1 w'.1)
    (member : (.file p, text) ∈ ws) :
    ∃ place, Ready s'.files p place ∧ s'.files.root.at? place = some (.file (.text text)) := by
  induction ws generalizing s with
  | nil => cases member
  | cons w rest ih =>
      obtain ⟨next, written, writes⟩ := writes
      have first := s.write_changes w.1 w.2
      rw [written] at first
      obtain ⟨here, others⟩ := List.pairwise_cons.mp apart
      rcases List.mem_cons.mp member with rfl | later
      · obtain ⟨place, ready, there⟩ := ready_of_write_file (given _ List.mem_cons_self) written
        have changes := writes.changes
        refine ⟨place, ready.keeps changes.keeps, (changes.file_iff ?_).mpr there⟩
        rintro ⟨w', inside, touched⟩
        rw [first.keeps.cwd] at touched
        have leads := ready.mayLeadTo
        rw [first.keeps.cwd] at leads
        exact here w' inside place ⟨p, rfl, leads⟩ touched
      · refine ih writes (fun w inside => own w (List.mem_cons_of_mem _ inside))
          (fun w inside => given w (List.mem_cons_of_mem _ inside)) ?_ later
        rwa [first.keeps.cwd]

/-- Texts that the files hold can be written and change nothing. -/
theorem writes_of_ready {fs : FileSystem} (given : ∀ w ∈ ws, w.2 ≠ "")
    (holds : ∀ w ∈ ws, ∃ p place, w.1 = .file p ∧ Ready fs p place ∧
      fs.root.at? place = some (.file (.text w.2))) :
    Writes ⟨sink, fs⟩ ws ⟨sink, fs⟩ := by
  induction ws with
  | nil => rfl
  | cons w rest ih =>
      obtain ⟨d, text⟩ := w
      obtain ⟨p, place, rfl, ready, there⟩ := holds _ List.mem_cons_self
      have written : State.write ⟨sink, fs⟩ (.file p) text =
          (.ok text.utf8ByteSize, ⟨sink, fs⟩) := by
        rw [write_file ready (given _ List.mem_cons_self), FileSystem.put_of_at? there]
      exact ⟨_, written, ih (fun w inside => given w (List.mem_cons_of_mem _ inside))
        fun w inside => holds w (List.mem_cons_of_mem _ inside)⟩

/-- **Writing files again.** The same writes to different files change nothing any more. -/
theorem Writes.files_again (writes : Writes s ws s') (own : ∀ w ∈ ws, ∃ p, w.1 = .file p)
    (given : ∀ w ∈ ws, w.2 ≠ "") (apart : ws.Pairwise fun w w' => Apart s.files.cwd w.1 w'.1)
    (sink : Sink) : Writes ⟨sink, s'.files⟩ ws ⟨sink, s'.files⟩ := by
  refine writes_of_ready given ?_
  rintro ⟨d, text⟩ member
  obtain ⟨p, rfl⟩ := own _ member
  obtain ⟨place, ready, there⟩ := writes.ready_of_files own given apart member
  exact ⟨p, place, rfl, ready, there⟩

/-- What a shared file holds after further texts. -/
def joined (before : String) (texts : List String) : String :=
  texts.foldl (fun before text => before ++ ("\n" ++ text)) before

theorem writes_more (noted : s.sink.hasAppended p = true) (ready : Ready s.files p place)
    (there : s.files.root.at? place = some (.file (.text before))) (given : ∀ t ∈ texts, t ≠ "") :
    Writes s (row (.append p) texts)
      { s with files := s.files.put place (.file (.text (joined before texts))) } := by
  induction texts generalizing s before with
  | nil =>
      change { s with files := s.files.put place (.file (.text before)) } = s
      rw [FileSystem.put_of_at? there]
  | cons text rest ih =>
      refine ⟨_, write_append_more noted ready there (given text List.mem_cons_self), ?_⟩
      have more := ih (s := { s with
        files := s.files.put place (.file (.text (before ++ ("\n" ++ text)))) }) noted
        (ready.put _) (ready.at?_put _) fun t inside => given t (List.mem_cons_of_mem _ inside)
      simp only [FileSystem.put_put] at more
      exact more

/-- Texts that a shared file holds can be written and leave it as it is. -/
theorem writes_of_ready_shared {fs : FileSystem} (fresh : sink.hasAppended p = false)
    (ready : Ready fs p place)
    (there : fs.root.at? place = some (.file (.text (joined text texts))))
    (given : text ≠ "") (others : ∀ t ∈ texts, t ≠ "") :
    ∃ sink', Writes ⟨sink, fs⟩ (row (.append p) (text :: texts)) ⟨sink', fs⟩ := by
  let noted := State.noteAppended ⟨sink, fs.put place (.file (.text text))⟩ p
  have first : State.write ⟨sink, fs⟩ (.append p) text = (.ok text.utf8ByteSize, noted) :=
    write_append_first fresh ready given
  have more : Writes noted (row (.append p) texts) ⟨noted.sink,
      (fs.put place (.file (.text text))).put place (.file (.text (joined text texts)))⟩ :=
    writes_more (hasAppended_noteAppended _ p) (ready.put _) (ready.at?_put _) others
  rw [FileSystem.put_put, FileSystem.put_of_at? there] at more
  exact ⟨noted.sink, noted, first, more⟩

/-- **Writing a shared file again.** The same writes through a sink that has not written to the
file yet rebuild it as it is. -/
theorem Writes.shared_again (writes : Writes s (row (.append p) texts) s')
    (fresh : s.sink.hasAppended p = false) (fresh' : sink.hasAppended p = false)
    (given : ∀ t ∈ texts, t ≠ "") :
    ∃ sink', Writes ⟨sink, s'.files⟩ (row (.append p) texts) ⟨sink', s'.files⟩ := by
  cases texts with
  | nil => exact ⟨sink, rfl⟩
  | cons text rest =>
      obtain ⟨next, written, writes⟩ := writes
      obtain ⟨here, others⟩ := List.forall_mem_cons.mp given
      obtain ⟨noted, place, ready, there⟩ := ready_of_write_append fresh here written
      obtain rfl := writes_unique writes (writes_more noted ready there others)
      exact writes_of_ready_shared fresh' (ready.put _) (ready.at?_put _) here others

end Sink.State

end Graft
