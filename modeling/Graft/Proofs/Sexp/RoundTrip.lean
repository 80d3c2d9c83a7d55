import Graft.Proofs.Sexp.PrintedForm
import Graft.Proofs.Sexp.ReadShape

/-!
# Printing and reading again

A printable unit is read back from its printed form as it was, spans aside, `parse_print`. What is
read from a text is not always printable: the text of a block of comments can end with an empty
line, and printing drops that line. `parse_print_iff` says exactly when a unit that was read from
a text stays the same: when no text of documentation in it ends with an empty line.
-/

namespace Graft.Sexp

/-- Two units with the same documentation and the same items, spans aside. -/
def Alike (u v : SourceUnit) : Prop :=
  u.doc = v.doc ∧ u.items.map Node.bare = v.items.map Node.bare

/-- A unit as it is read back from its printed form. -/
def rereadUnit (u : SourceUnit) : SourceUnit :=
  { u.withItems (u.items.map rereadItem) with doc := u.doc.bind reread }

variable {u v : SourceUnit}

@[simp] theorem items_rereadUnit (u : SourceUnit) :
    (rereadUnit u).items = u.items.map rereadItem := rfl

@[simp] theorem doc_rereadUnit (u : SourceUnit) : (rereadUnit u).doc = u.doc.bind reread := rfl

theorem mem_docs_iff {d : String} :
    d ∈ docs u ↔ u.doc = some d ∨ ∃ n ∈ u.items, n.doc = some d := by
  simp [docs]

theorem Alike.print (alike : Alike v u) : frontend.print v = frontend.print u := by
  change Sexp.print v = Sexp.print u
  rw [Sexp.print, Sexp.print, printChars_congr alike.1 alike.2]

/-- A unit whose items have the shape of items is read back, whatever its documentation is. -/
theorem parse_print_rereadUnit (path : Path) (tops : ∀ n ∈ u.items, TopLevel n) :
    ∃ v, frontend.parse path (frontend.print u) = .ok v ∧ Alike v (rereadUnit u) := by
  obtain ⟨items, accepted, same⟩ := read_printChars tops
  have text : (frontend.print u).toList = printChars u := String.toList_ofList
  rw [← text] at accepted
  exact ⟨_, parse_eq_ok_iff.mpr ⟨_, _, accepted, rfl⟩, rfl, same⟩

theorem bind_reread_eq_self_iff (doc : Option String) :
    doc.bind reread = doc ↔ ∀ d, doc = some d → reread d = some d := by
  cases doc <;> simp

theorem bare_rereadItem_iff (n : Node) :
    (rereadItem n).bare = n.bare ↔ n.doc.bind reread = n.doc := by
  obtain ⟨kind, value, span, doc, children⟩ := n
  simp [rereadItem]

/-- A unit is read back as it is exactly when each of its texts of documentation is. -/
theorem alike_rereadUnit_iff (u : SourceUnit) :
    Alike (rereadUnit u) u ↔ ∀ d ∈ docs u, reread d = some d := by
  rw [Alike, doc_rereadUnit, items_rereadUnit, List.map_map, List.map_inj_left,
    bind_reread_eq_self_iff]
  simp only [Function.comp_apply, bare_rereadItem_iff, bind_reread_eq_self_iff, mem_docs_iff]
  constructor
  · rintro ⟨unit, others⟩ d (doc | ⟨n, member, doc⟩)
    · exact unit d doc
    · exact others n member d doc
  · intro every
    exact ⟨fun d doc => every d (Or.inl doc),
      fun n member d doc => every d (Or.inr ⟨n, member, doc⟩)⟩

/-- **Printing, then reading.** A printable unit is read back from its printed form, with the same
documentation and the same items, spans aside. -/
theorem parse_print (path : Path) {u : SourceUnit} (printable : Printable u) :
    ∃ v, frontend.parse path (frontend.print u) = .ok v ∧ Alike v u := by
  obtain ⟨v, accepted, alike⟩ := parse_print_rereadUnit path printable.items
  have kept := (alike_rereadUnit_iff u).mpr fun d member => (printable.docs d member).reread
  exact ⟨v, accepted, alike.1.trans kept.1, alike.2.trans kept.2⟩

/-- A unit with a node of every kind and with documentation of several lines. -/
def sampleUnit : SourceUnit :=
  .ofItems ⟨⟨"sample.rmc"⟩, ""⟩ (some "a unit\n\nof two items")
    [⟨.reference, "import", .detached, some " ;; indented", [.literal "a \"b\"\n\\c"]⟩,
      .list .decl "fn" [.ident "X", .list .stmt "call" [.list .expr "get" []]]]

theorem printable_sampleUnit : Printable sampleUnit := by
  constructor
  · intro n member
    rcases List.mem_cons.mp member with rfl | later
    · refine ⟨rfl, by decide, ?_, by decide⟩
      intro c member
      rw [List.mem_singleton.mp member]
      exact .literal
    · rw [List.mem_singleton.mp later]
      refine ⟨rfl, by decide, ?_, by decide⟩
      intro c member
      rcases List.mem_cons.mp member with rfl | later
      · exact .ident (by decide)
      · rw [List.mem_singleton.mp later]
        apply Element.list (by decide)
        intro c member
        rw [List.mem_singleton.mp member]
        exact .list (by decide) (by simp)
  · intro d member
    have two : d = "a unit\n\nof two items" ∨ d = " ;; indented" := by
      simpa [docs, sampleUnit, Node.list, SourceUnit.ofItems, SourceUnit.items] using member
    rcases two with rfl | rfl
    · exact ⟨by decide, by decide⟩
    · exact ⟨by decide, by decide⟩

theorem parse_print_sampleUnit : Printable sampleUnit ∧
    ∃ v, frontend.parse ⟨"again.rmc"⟩ (frontend.print sampleUnit) = .ok v ∧
      Alike v sampleUnit :=
  ⟨printable_sampleUnit, parse_print ⟨"again.rmc"⟩ printable_sampleUnit⟩

/-- What is read from a text has the shape of a unit, and its documentation is clean. -/
theorem parse_shape {path : Path} {text : String} (accepted : frontend.parse path text = .ok u) :
    (∀ n ∈ u.items, TopLevel n) ∧ ∀ d ∈ docs u, Clean d := by
  obtain ⟨doc, items, result, rfl⟩ := parse_eq_ok_iff.mp accepted
  obtain ⟨shape, clean⟩ := read_shape result
  refine ⟨fun n member => (shape n member).shape, ?_⟩
  intro d member
  rcases mem_docs_iff.mp member with unit | ⟨n, here, item⟩
  · exact clean d unit
  · exact (shape n here).clean d item

/-- **Reading, printing and reading again.** The printed form of a unit that was read from a text
is accepted again. What is read from it is the same unit, spans aside, and prints to the same
text, exactly when no text of documentation in the unit ends with an empty line. In all cases it
is the unit with its documentation reread. -/
theorem parse_print_iff (path path' : Path) {text : String}
    (accepted : frontend.parse path text = .ok u) :
    ∃ v, frontend.parse path' (frontend.print u) = .ok v ∧ Alike v (rereadUnit u) ∧
      ((Alike v u ∧ frontend.print v = frontend.print u) ↔
        ∀ d ∈ docs u, (Text.rows d.toList).getLast? ≠ some []) := by
  obtain ⟨tops, clean⟩ := parse_shape accepted
  obtain ⟨v, again, alike⟩ := parse_print_rereadUnit path' tops
  refine ⟨v, again, alike, ?_⟩
  have stable : (∀ d ∈ docs u, reread d = some d) ↔
      ∀ d ∈ docs u, (Text.rows d.toList).getLast? ≠ some [] :=
    forall₂_congr fun d member => reread_eq_self_iff (clean d member)
  rw [← stable, ← alike_rereadUnit_iff]
  constructor
  · rintro ⟨same, -⟩
    exact ⟨alike.1.symm.trans same.1, alike.2.symm.trans same.2⟩
  · intro kept
    have same : Alike v u := ⟨alike.1.trans kept.1, alike.2.trans kept.2⟩
    exact ⟨same, same.print⟩

theorem parse_print_documented : ∃ u v,
    frontend.parse ⟨"a.rmc"⟩ ";; doc\n;;\n;; of (fn X)\n(fn X)" = .ok u ∧
      frontend.parse ⟨"b.rmc"⟩ (frontend.print u) = .ok v ∧
        Alike v u ∧ frontend.print v = frontend.print u := by
  let u : SourceUnit := .ofItems ⟨⟨"a.rmc"⟩, ";; doc\n;;\n;; of (fn X)\n(fn X)"⟩ none
    [⟨.decl, "fn", ⟨23, 29⟩, some "doc\n\nof (fn X)", [⟨.ident, "X", ⟨27, 28⟩, none, []⟩]⟩]
  have accepted : frontend.parse ⟨"a.rmc"⟩ ";; doc\n;;\n;; of (fn X)\n(fn X)" = .ok u := rfl
  obtain ⟨v, again, -, stable⟩ := parse_print_iff ⟨"a.rmc"⟩ ⟨"b.rmc"⟩ accepted
  refine ⟨u, v, accepted, again, stable.mpr ?_⟩
  decide

/-- An empty comment that documents a unit is printed as an empty line, which is read as nothing. -/
theorem print_emptyComment : ∃ u v,
    frontend.parse ⟨"a.rmc"⟩ ";;\n\n(fn X)\n" = .ok u ∧
      frontend.parse ⟨"a.rmc"⟩ (frontend.print u) = .ok v ∧
        ¬ Alike v u ∧ frontend.print v ≠ frontend.print u := by
  let u : SourceUnit := .ofItems ⟨⟨"a.rmc"⟩, ";;\n\n(fn X)\n"⟩ (some "")
    [⟨.decl, "fn", ⟨4, 10⟩, none, [⟨.ident, "X", ⟨8, 9⟩, none, []⟩]⟩]
  let v : SourceUnit := .ofItems ⟨⟨"a.rmc"⟩, "\n(fn X)\n"⟩ none
    [⟨.decl, "fn", ⟨1, 7⟩, none, [⟨.ident, "X", ⟨5, 6⟩, none, []⟩]⟩]
  have printed : frontend.print u = "\n(fn X)\n" := by decide
  refine ⟨u, v, rfl, ?_, ?_, by decide⟩
  · rw [printed]
    rfl
  · rintro ⟨doc, -⟩
    cases doc

end Graft.Sexp
