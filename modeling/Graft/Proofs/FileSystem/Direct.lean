import Graft.Proofs.FileSystem.Places
import Graft.Proofs.Path.Parent

/-!
# What writing along a direct path leaves alone

A direct path starts at the root and never goes up, so its names tell the way. Writing a file along
it, and making the directories on the way, changes what stands on the way, down to the file itself.
At every other place stands what stood there before, or nothing if nothing did: `AgreesOff`.
-/

namespace Graft

namespace Path

variable {p q : Path}

/-- A path from the root that never goes up. -/
structure Direct (p : Path) : Prop where
  rooted : p.isAbsolute = true
  noUp : ".." ∉ p.pieces

/-- A parent has the first pieces of the path. -/
theorem pieces_of_parent? (above : p.parent? = some q) :
    ∃ kept, kept <+: p.pieces ∧ q = ofPieces p.isAbsolute kept := by
  unfold parent? at above
  simp only at above
  split at above
  · cases above
  · next part rest counted =>
      cases above
      refine ⟨_, ?_, rfl⟩
      have tail : rest.dropWhile (fun part => part.2.isNone) <:+ p.parts.reverse :=
        (List.dropWhile_suffix _).trans ((List.suffix_cons part rest).trans
          (counted ▸ List.dropWhile_suffix _))
      rw [← List.reverse_prefix, List.reverse_reverse] at tail
      rw [← parts_map_fst]
      exact tail.map _

/-- The parent of a direct path is direct and lies on the way. -/
theorem Direct.parent? (direct : p.Direct) (above : p.parent? = some q) :
    q.Direct ∧ q.names <+: p.names := by
  obtain ⟨kept, initial, rfl⟩ := pieces_of_parent? above
  rw [direct.rooted]
  have fits : Fits true kept :=
    ⟨fun piece member => whole_of_mem_pieces (initial.subset member), by simp⟩
  refine ⟨⟨isAbsolute_ofPieces fits, ?_⟩, ?_⟩
  · rw [pieces_ofPieces fits]
    split
    · decide
    · exact fun up => direct.noUp (initial.subset up)
  · rw [names_ofPieces fits]
    exact initial.filter _

end Path

namespace FileSystem

open Graft.Path (counts)

variable {fs fs' before after : FileSystem} {p : Path} {names place dir : List String}
variable {entries : List (String × Entry)} {name text : String}

/-- The same entries stand at all places but those on the way down to `names`. -/
def AgreesOff (names : List String) (before after : FileSystem) : Prop :=
  ∀ place, ¬ place <+: names → after.root.at? place = before.root.at? place

namespace AgreesOff

theorem refl (names : List String) (fs : FileSystem) : AgreesOff names fs fs := fun _ _ => rfl

theorem trans (first : AgreesOff names fs before) (second : AgreesOff names before after) :
    AgreesOff names fs after :=
  fun place off => (second place off).trans (first place off)

theorem mono {above : List String} (agrees : AgreesOff above before after)
    (initial : above <+: names) : AgreesOff names before after :=
  fun place off => agrees place fun up => off (up.trans initial)

end AgreesOff

/-- A file or an empty directory that is set leaves all other places as they are. -/
theorem agreesOff_put {e : Entry} (leaf : ∀ next rest, e.at? (next :: rest) = none)
    (here : fs.root.at? dir = some (.dir entries))
    (fits : entries.lookup name = none ∨ ∃ old, entries.lookup name = some (.file old)) :
    AgreesOff (dir ++ [name]) fs (fs.put (dir ++ [name]) e) := by
  intro place off
  rcases prefix_cases (dir ++ [name]) place with ⟨rest, rfl⟩ | ⟨next, rest, above⟩ | apart
  · cases rest with
    | nil => exact absurd (by simp) off
    | cons next rest =>
        -- nothing stands below a file, an empty directory or a free name
        rw [FileSystem.put, Entry.at?_append, Entry.at?_put_self e name here, Option.bind_some,
          leaf, Entry.at?_append, Entry.at?_concat here]
        rcases fits with free | ⟨old, taken⟩
        · rw [free]
          rfl
        · rw [taken]
          rfl
  · exact absurd ⟨_, above.symm⟩ off
  · exact Entry.at?_put_of_apart e apart.1 apart.2

/-- The slot of a direct path stands at its names. -/
theorem place_of_slot {slot : Slot} (direct : p.Direct) (found : fs.slot p = .ok (some slot))
    (notHere : slot.name ≠ ".") : slot.dir ++ [slot.name] = p.names := by
  obtain ⟨-, -, init, blanks, split, given, blank, -, followed⟩ := slot_eq_some found
  have counted : counts slot.name = true := by simp [counts, given, notHere]
  have nothing : blanks.filter counts = [] := by
    rw [List.filter_eq_nil_iff]
    intro b member
    rw [blank b member]
    decide
  have noUp : ".." ∉ init := by
    intro up
    exact direct.noUp (split ▸ List.mem_append_left _ up)
  rw [(followAll_eq_ok followed).2 noUp, start, direct.rooted, if_pos rfl, Path.names, split,
    List.filter_append, List.filter_cons_of_pos counted, nothing, List.nil_append]

theorem makeDir_agreesOff (direct : p.Direct) (made : fs.makeDir p = .ok fs') :
    AgreesOff p.names fs fs' := by
  obtain ⟨slot, found, notHere, -, -, free, rfl⟩ := makeDir_eq_ok made
  obtain ⟨-, here, -⟩ := slot_eq_some found
  rw [← place_of_slot direct found notHere]
  exact agreesOff_put (fun _ _ => rfl) here (Or.inl free)

/-- Directories are made on the way only, also when it fails. -/
theorem createDirsWithin_agreesOff (levels : Nat) (fs : FileSystem) (direct : p.Direct) :
    AgreesOff p.names fs (createDirsWithin levels fs p).2 := by
  fun_induction createDirsWithin levels fs p with
  | case3 levels fs p given fs' made => exact makeDir_agreesOff direct made
  | case5 levels fs p given missing parent above fault fs' failed ih =>
      obtain ⟨direct', initial⟩ := direct.parent? above
      have made := (ih direct').mono initial
      rwa [failed] at made
  | case6 levels fs p given missing parent above fs' done fs'' made ih =>
      obtain ⟨direct', initial⟩ := direct.parent? above
      have first := (ih direct').mono initial
      rw [done] at first
      exact first.trans (makeDir_agreesOff direct made)
  | case7 levels fs p given missing parent above fs' done fault failed isDir ih =>
      obtain ⟨direct', initial⟩ := direct.parent? above
      have made := (ih direct').mono initial
      rwa [done] at made
  | case8 levels fs p given missing parent above fs' done fault failed noDir ih =>
      obtain ⟨direct', initial⟩ := direct.parent? above
      have made := (ih direct').mono initial
      rwa [done] at made
  | _ => exact .refl _ _

theorem createParent_agreesOff (fs : FileSystem) (direct : p.Direct) :
    AgreesOff p.names fs (fs.createParent p).2 := by
  unfold createParent
  split
  · next parent above =>
      obtain ⟨direct', initial⟩ := direct.parent? above
      exact (createDirsWithin_agreesOff _ fs direct').mono initial
  · exact .refl _ _

theorem write_agreesOff (direct : p.Direct) (written : fs.write p text = .ok fs') :
    AgreesOff p.names fs fs' := by
  obtain ⟨⟨place, content?⟩, opened, written⟩ := bind_eq_ok_iff.mp written
  cases written
  obtain ⟨leads, dir, name, entries, rfl, here, found⟩ := openFile_eq_ok opened
  have way : dir ++ [name] = p.names := by
    rw [leads.direct direct.noUp, direct.rooted]
    rfl
  rw [← way]
  refine agreesOff_put (fun _ _ => rfl) here ?_
  cases content? with
  | none => exact Or.inl found
  | some old => exact Or.inr ⟨old, found⟩

end FileSystem

end Graft
