import Graft.Proofs.Sexp.Joined
import Graft.Proofs.Sink.Writes

/-!
# A shared file as one unit

The first text that a run writes to a shared file replaces what the file held, and every further
one goes behind a line feed. So the file holds the texts of the run and nothing else,
`Writes.readText_of_shared`. If the texts are the printed forms of units without documentation, the
file is the text of one unit with all their items, `parse_shared`.

The writes succeed exactly when the file can be opened once its directory has been made. What the
file held before does not matter, not even whether it was there.
-/

namespace Graft

namespace FileSystem

/-- A file that can be opened for writing once its directory has been made. -/
def Writable (fs : FileSystem) (p : Path) : Prop :=
  ∃ made place content?, fs.createParent p = (.ok (), made) ∧
    made.openFile p = .ok (place, content?)

end FileSystem

namespace Sink.State

open FileSystem (Writable)
open Sexp (Printable frontend printAll printMore)

variable {s s' : Sink.State} {p : Path} {text : String} {texts : List String}
variable {u : SourceUnit} {us : List SourceUnit}

/-- The first text for a shared file is written exactly when the file can be. -/
theorem write_append_iff_writable (fresh : s.sink.hasAppended p = false) (given : text ≠ "") :
    (∃ s', s.write (.append p) text = (.ok text.utf8ByteSize, s')) ↔ Writable s.files p := by
  simp only [write_eq_ok_iff given, and_true, writeText, fresh, Bool.false_eq_true, if_false]
  constructor
  · rintro ⟨s', written⟩
    split at written
    · cases written
    · next made parent =>
        split at written
        · cases written
        · next wrote =>
            obtain ⟨⟨place, content?⟩, opened, -⟩ := bind_eq_ok_iff.mp wrote
            exact ⟨made, place, content?, parent, opened⟩
  · rintro ⟨made, place, content?, parent, opened⟩
    have wrote : made.write p text = .ok (made.put place (.file (.text text))) :=
      bind_eq_ok_iff.mpr ⟨_, opened, rfl⟩
    simp [parent, wrote]

/-- After the first text for a shared file, all further ones are written. -/
theorem writes_shared_iff (fresh : s.sink.hasAppended p = false)
    (given : ∀ t ∈ text :: texts, t ≠ "") :
    (∃ s', Writes s (row (.append p) (text :: texts)) s') ↔ Writable s.files p := by
  obtain ⟨here, later⟩ := List.forall_mem_cons.mp given
  rw [← write_append_iff_writable fresh here]
  constructor
  · rintro ⟨s', first, written, -⟩
    exact ⟨first, written⟩
  · rintro ⟨first, written⟩
    obtain ⟨noted, place, ready, there⟩ := ready_of_write_append fresh here written
    exact ⟨_, first, written, writes_more noted ready there later⟩

/-- A shared file holds the texts of the run and nothing else. -/
theorem Writes.readText_of_shared (writes : Writes s (row (.append p) (text :: texts)) s')
    (fresh : s.sink.hasAppended p = false) (given : ∀ t ∈ text :: texts, t ≠ "") :
    s'.files.readText p = .ok (joined text texts) := by
  obtain ⟨here, later⟩ := List.forall_mem_cons.mp given
  obtain ⟨first, written, writes⟩ := writes
  obtain ⟨noted, place, ready, there⟩ := ready_of_write_append fresh here written
  obtain rfl := writes_unique writes (writes_more noted ready there later)
  exact (ready.put _).readText (ready.at?_put _)

theorem toList_joined_print (before : String) (us : List SourceUnit) :
    (joined before (us.map frontend.print)).toList = before.toList ++ printMore us := by
  induction us generalizing before with
  | nil => simp [joined, printMore]
  | cons u us ih =>
      have printed : (frontend.print u).toList = Sexp.printChars u := String.toList_ofList
      rw [List.map_cons, joined, List.foldl_cons, ← joined, ih, Sexp.printMore_cons]
      simp [printed]

theorem joined_print (u : SourceUnit) (us : List SourceUnit) :
    joined (frontend.print u) (us.map frontend.print) = String.ofList (printAll u us) := by
  rw [← String.toList_inj, toList_joined_print, String.toList_ofList, printAll]
  exact congrArg (· ++ _) String.toList_ofList

/-- **One unit from many.** The printed forms of units that have items and no documentation of
their own are written to a shared file exactly when it can be opened at all. Whatever it held
before, it then holds a text that is read as one unit without documentation, with the items of all
units in order, spans aside. -/
theorem parse_shared (path : Path) (given : us ≠ []) (undocumented : ∀ u ∈ us, u.doc = none)
    (filled : ∀ u ∈ us, u.items ≠ []) (printable : ∀ u ∈ us, Printable u)
    (fresh : s.sink.hasAppended p = false) :
    ((∃ s', Writes s (row (.append p) (us.map frontend.print)) s') ↔ Writable s.files p) ∧
      ∀ s', Writes s (row (.append p) (us.map frontend.print)) s' →
        ∃ text v, s'.files.readText p = .ok text ∧ frontend.parse path text = .ok v ∧
          v.doc = none ∧
          v.items.map Node.bare = (us.flatMap (·.items)).map Node.bare := by
  cases us with
  | nil => exact absurd rfl given
  | cons u us =>
      have texts : ∀ t ∈ frontend.print u :: us.map frontend.print, t ≠ "" := by
        intro t member
        rw [← List.map_cons] at member
        obtain ⟨v, inside, rfl⟩ := List.mem_map.mp member
        exact fun empty => filled v inside (Sexp.print_eq_empty_iff.mp empty).2
      refine ⟨writes_shared_iff fresh texts, ?_⟩
      intro s' writes
      obtain ⟨v, accepted, doc, items⟩ := Sexp.parse_printAll path undocumented printable
      refine ⟨_, v, writes.readText_of_shared fresh texts, ?_, doc, items⟩
      rwa [joined_print]

/-- A unit whose only item is documented. -/
def documentedUnit (name doc : String) : SourceUnit :=
  .ofItems ⟨⟨"unit.rmc"⟩, ""⟩ none [⟨.decl, "fn", .detached, some doc, [.ident name]⟩]

theorem undocumented_documentedUnit (name doc : String) :
    (documentedUnit name doc).doc = none ∧ (documentedUnit name doc).items ≠ [] :=
  ⟨rfl, List.cons_ne_nil _ _⟩

theorem printable_documentedUnit {name doc : String} (symbol : Sexp.IsSymbol name)
    (settled : Sexp.Settled doc) : Printable (documentedUnit name doc) := by
  constructor
  · intro n member
    rw [List.mem_singleton.mp member]
    have head : Sexp.IsSymbol "fn" := by decide
    refine ⟨rfl, head, ?_, ?_⟩
    · intro c member
      rw [List.mem_singleton.mp member]
      exact .ident symbol
    · simp [Node.nesting, Node.nestingAll, Node.ident, Kind.isLeaf, Sexp.maxOpen]
  · intro d member
    have same : d = doc := by
      simpa [Sexp.docs, documentedUnit, Node.list, SourceUnit.ofItems, SourceUnit.items]
        using member
    exact same.symm ▸ settled

/-- Two units whose comments meet the seam between their texts. -/
def seamUnits : List SourceUnit :=
  [documentedUnit "A" "macro:use m\n\nfirst", documentedUnit "B" " ;second"]

theorem printable_of_mem_seamUnits : ∀ u ∈ seamUnits, Printable u := by
  intro u member
  rcases List.mem_cons.mp member with rfl | later
  · exact printable_documentedUnit (by decide) ⟨by decide, by decide⟩
  · rw [List.mem_singleton.mp later]
    exact printable_documentedUnit (by decide) ⟨by decide, by decide⟩

/-- A file with the text of an earlier run. -/
def staleFiles : FileSystem :=
  ⟨.dir [("out", .dir [("all.rmc", .file (.text ";; old\n\n(fn Old)\n"))])], []⟩

theorem parse_shared_seamUnits :
    ∃ s' text v, Writes ⟨Sink.fresh, staleFiles⟩
        (row (.append ⟨"/out/all.rmc"⟩) (seamUnits.map frontend.print)) s' ∧
      s'.files.readText ⟨"/out/all.rmc"⟩ = .ok text ∧
      frontend.parse ⟨"/out/all.rmc"⟩ text = .ok v ∧ v.doc = none ∧
      v.items.map Node.bare =
        [⟨.decl, "fn", .detached, some "macro:use m\n\nfirst", [.ident "A"]⟩,
          ⟨.decl, "fn", .detached, some " ;second", [.ident "B"]⟩] := by
  have writable : Writable staleFiles ⟨"/out/all.rmc"⟩ := ⟨staleFiles, _, _, rfl, rfl⟩
  have fresh : Sink.fresh.hasAppended ⟨"/out/all.rmc"⟩ = false := rfl
  have given : seamUnits ≠ [] := List.cons_ne_nil _ _
  have plain : ∀ u ∈ seamUnits, u.doc = none ∧ u.items ≠ [] := by
    simp [seamUnits, undocumented_documentedUnit]
  obtain ⟨writes_iff, every⟩ := parse_shared (s := ⟨Sink.fresh, staleFiles⟩) ⟨"/out/all.rmc"⟩
    given (fun u member => (plain u member).1) (fun u member => (plain u member).2)
    printable_of_mem_seamUnits fresh
  obtain ⟨s', writes⟩ := writes_iff.mpr writable
  obtain ⟨text, v, read, accepted, doc, items⟩ := every s' writes
  exact ⟨s', text, v, writes, read, accepted, doc, items⟩

end Sink.State

end Graft
