import Graft.Proofs.Sexp.RoundTrip

/-!
# Printed forms one after the other

Units without documentation of their own can be printed into one text, each but the first behind a
line feed. The text is read as one unit with all their items: at a seam no comments wait, so the
line feed says nothing there, and the comments behind it stand directly above the first item of the
next unit, `parse_printAll`.

Documentation of a unit would not survive in such a text. At the start of it, it would become that
of the whole, and further on it would be dropped.
-/

namespace Graft.Sexp

variable {u : SourceUnit} {us : List SourceUnit}

theorem printHeader_some_ne_nil (doc : String) : printHeader (some doc) ≠ [] := by
  simp [printHeader]

/-- Only a unit without documentation and without items prints to nothing. -/
theorem print_eq_empty_iff : frontend.print u = "" ↔ u.doc = none ∧ u.items = [] := by
  have whole : frontend.print u = "" ↔ printChars u = [] := by
    rw [← String.toList_inj]
    change (String.ofList (printChars u)).toList = [] ↔ _
    rw [String.toList_ofList]
  rw [whole, printChars, List.append_eq_nil_iff]
  constructor
  · rintro ⟨header, body⟩
    constructor
    · cases doc : u.doc with
      | none => rfl
      | some d => exact absurd (doc ▸ header) (printHeader_some_ne_nil d)
    · cases items : u.items with
      | nil => rfl
      | cons n ns => simp [items, printItems] at body
  · rintro ⟨doc, items⟩
    simp [doc, items, printHeader, printItems]

/-- The printed forms of units, each behind a line feed. -/
def printMore (us : List SourceUnit) : List Char :=
  us.flatMap fun u => '\n' :: printChars u

/-- A printed form and those behind it, as one text. -/
def printAll (u : SourceUnit) (us : List SourceUnit) : List Char :=
  printChars u ++ printMore us

theorem printMore_cons (u : SourceUnit) (us : List SourceUnit) :
    printMore (u :: us) = '\n' :: (printChars u ++ printMore us) := by
  simp [printMore]

theorem printChars_of_undocumented (undocumented : u.doc = none) :
    printChars u = printItems none u.items := by
  rw [printChars, undocumented]
  rfl

namespace State

/-- Behind finished items, further printed forms add their items. -/
theorem run_printMore (undocumented : ∀ u ∈ us, u.doc = none)
    (tops : ∀ u ∈ us, ∀ n ∈ u.items, TopLevel n) (o newlines : Nat) (doc : Option String)
    (items : List Node) :
    ∃ (o' newlines' : Nat) (ms : List Node),
      ms.map Node.bare = ((us.flatMap (·.items)).map rereadItem).map Node.bare ∧ ∀ rest,
      run ⟨o, .outside newlines, [], doc, items, []⟩ (printMore us ++ rest) =
        run ⟨o', .outside newlines', [], doc, ms.reverse ++ items, []⟩ rest := by
  induction us generalizing o newlines items with
  | nil => exact ⟨o, newlines, [], rfl, fun rest => rfl⟩
  | cons u us ih =>
      obtain ⟨here, later⟩ := List.forall_mem_cons.mp undocumented
      obtain ⟨shape, shapes⟩ := List.forall_mem_cons.mp tops
      obtain ⟨o₁, newlines₁, ms, same, body⟩ :=
        run_printItems shape none (o + 1) (newlines + 1) doc items
      obtain ⟨o₂, newlines₂, ms', sames, others⟩ :=
        ih later shapes o₁ newlines₁ (ms.reverse ++ items)
      refine ⟨o₂, newlines₂, ms ++ ms', by simp [same, sames], ?_⟩
      intro rest
      rw [printMore_cons, printChars_of_undocumented here, List.cons_append, run_lineFeed,
        List.append_assoc, body, others]
      simp

end State

/-- Printed forms of units without documentation are read together as all their items. -/
theorem read_printAll (undocumented : ∀ v ∈ u :: us, v.doc = none)
    (tops : ∀ v ∈ u :: us, ∀ n ∈ v.items, TopLevel n) :
    ∃ items, read (printAll u us) = .ok (none, items) ∧
      items.map Node.bare = (((u :: us).flatMap (·.items)).map rereadItem).map Node.bare := by
  obtain ⟨here, later⟩ := List.forall_mem_cons.mp undocumented
  obtain ⟨shape, shapes⟩ := List.forall_mem_cons.mp tops
  obtain ⟨o, newlines, ms, same, body⟩ := State.run_printItems shape none 0 0 none []
  obtain ⟨o', newlines', ms', sames, others⟩ :=
    State.run_printMore later shapes o newlines none ms.reverse
  refine ⟨ms ++ ms', ?_, by simp [same, sames]⟩
  have whole : State.initial.run (printAll u us) =
      .ok ⟨o', .outside newlines', [], none, (ms ++ ms').reverse, []⟩ := by
    have run := others []
    rw [List.append_nil, State.run_nil] at run
    rw [printAll, printChars_of_undocumented here, State.initial, body, List.append_nil, run,
      List.reverse_append]
  rw [read, whole]
  simp [State.finish, State.detach, State.pendingDoc]

/-- The items of printable units come back as they are. -/
theorem bare_rereadItem_of_printable (printable : Printable u) :
    ∀ n ∈ u.items, (rereadItem n).bare = n.bare := by
  intro n member
  rw [bare_rereadItem_iff, bind_reread_eq_self_iff]
  exact fun d doc => (printable.docs d (mem_docs_iff.mpr (Or.inr ⟨n, member, doc⟩))).reread

/-- **Reading a joined text.** Printable units without documentation of their own, printed one
after the other with a line feed between each and the next, are read as one unit that has no
documentation and all their items, spans aside. -/
theorem parse_printAll (path : Path) (undocumented : ∀ v ∈ u :: us, v.doc = none)
    (printable : ∀ v ∈ u :: us, Printable v) :
    ∃ v, frontend.parse path (String.ofList (printAll u us)) = .ok v ∧ v.doc = none ∧
      v.items.map Node.bare = ((u :: us).flatMap (·.items)).map Node.bare := by
  obtain ⟨items, accepted, same⟩ :=
    read_printAll undocumented fun v member => (printable v member).items
  refine ⟨.ofItems ⟨path, String.ofList (printAll u us)⟩ none items, ?_, rfl, ?_⟩
  · simp only [frontend, parse, String.toList_ofList, accepted]
  · have kept : ∀ n ∈ (u :: us).flatMap (·.items), (rereadItem n).bare = n.bare := by
      intro n member
      obtain ⟨v, inside, member⟩ := List.mem_flatMap.mp member
      exact bare_rereadItem_of_printable (printable v inside) n member
    calc items.map Node.bare
        = (((u :: us).flatMap (·.items)).map rereadItem).map Node.bare := same
      _ = ((u :: us).flatMap (·.items)).map Node.bare := by
        rw [List.map_map]
        exact List.map_congr_left kept

end Graft.Sexp
