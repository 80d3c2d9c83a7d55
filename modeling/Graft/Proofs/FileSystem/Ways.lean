import Graft.Proofs.FileSystem.Direct
import Graft.Proofs.FileSystem.Ready
import Graft.Proofs.Path.Lengths

/-!
# The way of a path

A path is followed piece by piece, so it passes a place for each of its first pieces: `OnWay`.
Making the directory of a file makes directories on the way of its path and nowhere else, and
writing the file makes none, `MadeWithin`.

Paths of the same components may be spelled in different ways. They lead to one place as long as
each of them leads anywhere, `place_of_same`.

The system takes the path of a file only if it is not too long. Then it takes the paths of the
directories on the way as well, `checkText_below`, also when they are spelled one byte longer.
-/

namespace Graft

namespace Path

variable {p q : Path} {kept : List String}

/-- A relative path that is not empty does not start with a separator. -/
theorem head?_pieces_ne (relative : p.isAbsolute = false) (given : p.text ≠ "") :
    p.pieces.head? ≠ some "" := by
  rcases body_cases p with ⟨absolute, -⟩ | ⟨-, whole⟩
  · rw [relative] at absolute
    cases absolute
  · rw [pieces_eq, ← whole]
    cases chars : p.text.toList with
    | nil => exact absurd (String.toList_inj.mp chars) given
    | cons c rest =>
        have plain : (c == '/') = false := by simpa [isAbsolute, chars] using relative
        rw [Text.pieces, plain, if_neg Bool.false_ne_true]
        intro first
        cases cut : Text.pieces (· == '/') rest <;> simp [cut] at first

/-- The first pieces of a path that has a parent are those of a path of the same sort. -/
theorem fits_of_initial (above : p.parent? = some q) (initial : kept <+: p.pieces) :
    Fits p.isAbsolute kept := by
  refine ⟨fun piece member => whole_of_mem_pieces (initial.subset member), ?_⟩
  intro relative first
  have given : p.text ≠ "" := by
    intro empty
    obtain rfl : p = ⟨""⟩ := by cases p; simpa using empty
    cases above
  refine head?_pieces_ne relative given ?_
  obtain ⟨rest, split⟩ := List.head?_eq_some_iff.mp first
  obtain ⟨more, whole⟩ := initial
  rw [← whole, split]
  rfl

/-- Paths of the same components start at the same place and have the same names. -/
theorem names_of_same (same : p.same q = true) :
    p.isAbsolute = q.isAbsolute ∧ p.names = q.names := by
  have components : p.components = q.components := by simpa [Path.same] using same
  have rooted : ∀ r : Path, r.isAbsolute = true ↔ .root ∈ r.components := by
    intro r
    have plain : .root ∉ r.names.map named := by
      intro member
      obtain ⟨name, -, isRoot⟩ := List.mem_map.mp member
      simpa [isRoot, Component.rank] using two_le_rank_named name
    rw [components_eq, lead, List.mem_append]
    cases r.isAbsolute with
    | true => simp
    | false =>
        simp only [Bool.false_eq_true, if_false, plain, or_false, false_iff]
        split <;> simp
  refine ⟨?_, ?_⟩
  · rw [Bool.eq_iff_iff, rooted, rooted, components]
  · rw [← names_of_components, ← names_of_components, components]

end Path

namespace FileSystem

open Graft.Path (counts)

variable {touched made made' : List String → Prop} {fs fs' before after : FileSystem}
variable {p q : Path} {place place' next dir : List String} {entries : List (String × Entry)}
variable {name : String} {pieces : List String}

/-! ### Paths of the same components -/

/-- Pieces that do not count make no difference. -/
theorem followAll_counts (followed : fs.followAll place pieces = .ok next) :
    fs.followAll place (pieces.filter counts) = .ok next := by
  induction pieces generalizing place with
  | nil => exact followed
  | cons piece pieces ih =>
      obtain ⟨mid, step, followed⟩ := followAll_cons_eq_ok_iff.mp followed
      cases counted : counts piece with
      | true =>
          rw [List.filter_cons_of_pos counted]
          exact followAll_cons_eq_ok_iff.mpr ⟨mid, step, ih followed⟩
      | false =>
          obtain ⟨entries, here, -⟩ := follow_eq_ok step
          rw [follow_blank here counted] at step
          obtain rfl := Except.ok.inj step
          rw [List.filter_cons_of_neg (by simp [counted])]
          exact ih followed

theorem place_of_same (same : p.same q = true) (resolved : fs.resolve p = .ok place)
    (resolved' : fs.resolve q = .ok place') : place = place' := by
  obtain ⟨rooted, names⟩ := Path.names_of_same same
  obtain ⟨-, -, followed⟩ := bind_eq_ok_iff.mp resolved
  obtain ⟨-, -, followed'⟩ := bind_eq_ok_iff.mp resolved'
  have down : fs.followAll (fs.start p) p.names = .ok place := followAll_counts followed
  have down' : fs.followAll (fs.start q) q.names = .ok place' := followAll_counts followed'
  rw [start, rooted, names] at down
  exact Except.ok.inj (down.symm.trans down')

/-! ### Places on the way -/

/-- A place that a path passes, or leads to. -/
def OnWay (fs : FileSystem) (p : Path) (place : List String) : Prop :=
  ∃ passed, passed <+: p.pieces ∧ fs.followAll (fs.start p) passed = .ok place

namespace OnWay

theorem of_resolve (resolved : fs.resolve p = .ok place) : OnWay fs p place := by
  obtain ⟨-, -, followed⟩ := bind_eq_ok_iff.mp resolved
  exact ⟨p.pieces, List.prefix_refl _, followed⟩

theorem keeps (onWay : OnWay before p place) (kept : Keeps touched before after) :
    OnWay after p place := by
  obtain ⟨passed, initial, followed⟩ := onWay
  refine ⟨passed, initial, ?_⟩
  rw [start, kept.cwd]
  exact kept.followAll followed

/-- The way of the parent is a part of the way. -/
theorem of_parent? (above : p.parent? = some q) (onWay : OnWay fs q place) :
    OnWay fs p place := by
  obtain ⟨kept, initial, rfl⟩ := Path.pieces_of_parent? above
  have fits := Path.fits_of_initial above initial
  obtain ⟨passed, first, followed⟩ := onWay
  rw [start, Path.isAbsolute_ofPieces fits, ← start] at followed
  rw [Path.pieces_ofPieces fits] at first
  split at first
  · -- the parent has no pieces but an empty one, which leads nowhere
    rcases List.prefix_cons_iff.mp first with rfl | ⟨rest, rfl, none⟩
    · exact ⟨[], List.nil_prefix, followed⟩
    · obtain ⟨mid, step, followed⟩ := followAll_cons_eq_ok_iff.mp followed
      obtain ⟨entries, here, -⟩ := follow_eq_ok step
      rw [follow_blank here rfl] at step
      obtain rfl := Except.ok.inj step
      obtain rfl := List.prefix_nil.mp none
      exact ⟨[], List.nil_prefix, followed⟩
  · exact ⟨passed, first.trans initial, followed⟩

end OnWay

/-! ### Texts of directories on the way -/

theorem checkText_eq_ok_iff : checkText p = .ok () ↔
    '\x00' ∉ p.text.toList ∧ p.text ≠ "" ∧ p.text.utf8ByteSize ≤ maxPath := by
  unfold checkText
  split
  · next nul => simp [nul]
  · next clean =>
      split
      · next empty => simp [empty]
      · next given =>
          split
          · next long => simp [Nat.not_le.mpr long]
          · next short => simp [clean, given, Nat.not_lt.mp short]

theorem checkText_of_long (clean : '\x00' ∉ p.text.toList) (long : maxPath < p.text.utf8ByteSize) :
    checkText p = .error .nameTooLong := by
  have given : p.text ≠ "" := by
    intro empty
    simp [empty] at long
  rw [checkText, if_neg clean, if_neg given, if_pos long]

/-- A direct path passes places on the way down to its names only. -/
theorem OnWay.initial (direct : p.Direct) (onWay : OnWay fs p place) : place <+: p.names := by
  obtain ⟨passed, first, followed⟩ := onWay
  have noUp : ".." ∉ passed := fun up => direct.noUp (first.subset up)
  rw [(followAll_eq_ok followed).2 noUp, start, direct.rooted, if_pos rfl, List.nil_append]
  exact first.filter _

/-- The path of a directory above another place is not the longer one. -/
theorem utf8ByteSize_below_le {base : Path} {names : List String} (rooted : base.isAbsolute = true)
    (tidy : base.Tidy) (direct : p.Direct) (steps : ∀ name ∈ names, Path.IsStep name)
    (given : names ≠ []) (above : base.names ++ names <+: p.names)
    (other : base.names ++ names ≠ p.names) :
    (base.below names).text.utf8ByteSize ≤ p.text.utf8ByteSize := by
  obtain ⟨rest, whole⟩ := above
  -- what is left of the place takes at least the separator that the base may waste
  have more : 1 ≤ Path.width rest := by
    cases rest with
    | nil => exact absurd (by simpa using whole) other
    | cons name rest =>
        rw [Path.width_cons]
        omega
  have fits := Path.width_filter_le counts p.pieces
  rw [← Path.names, ← whole, Path.width_append, Path.width_append] at fits
  have size := p.utf8ByteSize_eq
  have size' := (base.below names).utf8ByteSize_eq
  rw [direct.rooted, if_pos rfl] at size
  rw [Path.isAbsolute_below steps, rooted, if_pos rfl, Path.pieces_below steps given,
    Path.width_append] at size'
  rw [Path.Tidy] at tidy
  omega

/-- A directory on the way of a file has a path that the system takes. -/
theorem checkText_below {base : Path} {names : List String} (rooted : base.isAbsolute = true)
    (tidy : base.Tidy) (direct : p.Direct) (readable : checkText p = .ok ()) (given : names ≠ [])
    (above : base.names ++ names <+: p.names) (other : base.names ++ names ≠ p.names) :
    checkText (base.below names) = .ok () := by
  obtain ⟨clean, -, short⟩ := checkText_eq_ok_iff.mp readable
  have steps : ∀ name ∈ names, Path.IsStep name := fun name member =>
    Path.isStep_of_mem_names (above.subset (List.mem_append_right _ member))
  have le := utf8ByteSize_below_le rooted tidy direct steps given above other
  refine checkText_eq_ok_iff.mpr ⟨fun nul => ?_, fun empty => ?_, Nat.le_trans le short⟩
  · -- a name with that character would be one of the file
    obtain ⟨piece, member, inside⟩ := (Path.mem_text_iff (by decide)).mp nul
    have counted : counts piece = true := by
      by_contra blank
      rcases blank_cases (Bool.eq_false_iff.mpr blank) with rfl | rfl <;> simp at inside
    have lower : piece ∈ base.names ++ names := by
      rw [← Path.names_below steps]
      exact List.mem_filter.mpr ⟨member, counted⟩
    exact clean ((Path.mem_text_iff (by decide)).mpr
      ⟨piece, (List.mem_filter.mp (above.subset lower)).1, inside⟩)
  · have rooted' : (base.below names).isAbsolute = true := by
      rw [Path.isAbsolute_below steps, rooted]
    simp [Path.isAbsolute, empty] at rooted'

/-! ### Where files and directories stand -/

/-- A directory stands at a place. -/
def IsDirAt (fs : FileSystem) (place : List String) : Prop :=
  ∃ entries, fs.root.at? place = some (.dir entries)

/-- The same file stands at a place, or none. -/
def SameFile (before after : FileSystem) (place : List String) : Prop :=
  ∀ content, after.root.at? place = some (.file content) ↔
    before.root.at? place = some (.file content)

/-- Every directory that stands afterwards stood before, or was made at a place of some kind. -/
def MadeWithin (made : List String → Prop) (before after : FileSystem) : Prop :=
  ∀ place, IsDirAt after place → IsDirAt before place ∨ made place

namespace MadeWithin

theorem refl (made : List String → Prop) (fs : FileSystem) : MadeWithin made fs fs :=
  fun _ => Or.inl

theorem trans (first : MadeWithin made fs before) (second : MadeWithin made before after) :
    MadeWithin made fs after := by
  intro place isDir
  rcases second place isDir with isDir | new
  · exact first place isDir
  · exact Or.inr new

theorem mono (within : MadeWithin made before after)
    (wider : ∀ place, made place → made' place) : MadeWithin made' before after :=
  fun place isDir => (within place isDir).imp_right (wider place)

end MadeWithin

/-- A directory that stands somewhere after a directory or a file was set is that directory, or it
stood there before. -/
theorem dir_of_put {e : Entry} (leaf : ∀ next rest, e.at? (next :: rest) = none)
    (here : fs.root.at? dir = some (.dir entries))
    (isDir : IsDirAt (fs.put (dir ++ [name]) e) place) :
    place = dir ++ [name] ∧ e.isDir = true ∨ IsDirAt fs place := by
  obtain ⟨es, there⟩ := isDir
  rcases prefix_cases (dir ++ [name]) place with ⟨rest, rfl⟩ | ⟨next, rest, above⟩ | apart
  · rw [Entry.at?_append, FileSystem.put, Entry.at?_put_self _ name here, Option.bind_some] at there
    cases rest with
    | nil =>
        rw [Entry.at?_nil, Option.some.injEq] at there
        exact Or.inl ⟨List.append_nil _, by rw [there, Entry.isDir]⟩
    | cons next rest =>
        rw [leaf] at there
        cases there
  · exact Or.inr (Entry.dir_of_above here above.symm)
  · exact Or.inr ⟨es, (Entry.at?_put_of_apart e apart.1 apart.2).symm.trans there⟩

theorem makeDir_made (made : fs.makeDir p = .ok fs') : MadeWithin (OnWay fs' p) fs fs' := by
  obtain ⟨dir, name, entries, here, -, rfl, resolved⟩ := makeDir_eq_put made
  intro place isDir
  rcases dir_of_put (fun _ _ => rfl) here isDir with ⟨rfl, -⟩ | old
  · exact Or.inr (.of_resolve resolved)
  · exact Or.inl old

/-- Directories are made on the way, also when it fails. -/
theorem createDirsWithin_made (levels : Nat) (fs : FileSystem) (p : Path) :
    MadeWithin (OnWay (createDirsWithin levels fs p).2 p) fs (createDirsWithin levels fs p).2 := by
  fun_induction createDirsWithin levels fs p with
  | case3 levels fs p given fs' made => exact makeDir_made made
  | case5 levels fs p given missing parent above fault fs' failed ih =>
      rw [failed] at ih
      exact ih.mono fun _ => OnWay.of_parent? above
  | case6 levels fs p given missing parent above fs' done fs'' made ih =>
      rw [done] at ih
      have kept := (makeDir_changes (fun _ => False) made).keeps
      exact (ih.mono fun _ onWay => (onWay.of_parent? above).keeps kept).trans (makeDir_made made)
  | case7 levels fs p given missing parent above fs' done fault failed isDir ih =>
      rw [done] at ih
      exact ih.mono fun _ => OnWay.of_parent? above
  | case8 levels fs p given missing parent above fs' done fault failed noDir ih =>
      rw [done] at ih
      exact ih.mono fun _ => OnWay.of_parent? above
  | _ => exact .refl _ _

theorem createParent_made (fs : FileSystem) (p : Path) :
    MadeWithin (OnWay (fs.createParent p).2 p) fs (fs.createParent p).2 := by
  unfold createParent
  split
  · next parent above =>
      exact (createDirsWithin_made _ fs parent).mono fun _ => OnWay.of_parent? above
  · exact .refl _ _

/-- Filling a file that was opened makes no directory. -/
theorem made_put_opened {content? : Option Content} (made : List String → Prop)
    (opened : fs.openFile p = .ok (place, content?)) (new : Content) :
    MadeWithin made fs (fs.put place (.file new)) := by
  obtain ⟨-, dir, name, entries, rfl, here, -⟩ := openFile_eq_ok opened
  intro other isDir
  rcases dir_of_put (fun _ _ => rfl) here isDir with ⟨-, noFile⟩ | old
  · cases noFile
  · exact Or.inl old

end FileSystem

end Graft
