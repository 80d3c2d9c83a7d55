import Graft.Proofs.Directive.Lines
import Graft.Proofs.Sexp.RoundTrip

/-!
# Directives of a printed form

Printing does not keep every text of documentation: carriage returns at the end of a line, an empty
last line and a text without lines are lost. None of these can hold a directive, so the directives
of a text and of what it is reread as are the same, `parse_bind_reread`. Since every item gets its
own text back, a unit that is printed and read again asks for the same handlers with the same
arguments in the same places, `parse_print_directives`.

This is said of all texts of documentation. That the texts themselves come back needs more, see
`parse_print`.
-/

namespace Graft.Sexp

open Directive (ofLine?)
open Text (rows closed lines)

/-- A line keeps its directive without the carriage returns at its end. -/
theorem ofLine?_dropReturns (line : List Char) : ofLine? (dropReturns line) = ofLine? line := by
  obtain ⟨tail, whole, returns⟩ := eq_dropReturns_append line
  have blank : ∀ c ∈ tail, Text.isBlank c = true := by
    intro c member
    rw [returns c member]
    decide
  conv_rhs => rw [whole]
  exact (Directive.ofLine?_append_blanks blank _).symm

/-- The lines of a text of documentation, as it is reread. -/
theorem lines_of_reread {doc again : String} (same : reread doc = some again) :
    lines again.toList = closed ((lines doc.toList).map dropReturns) := by
  rw [reread] at same
  split at same
  · cases same
  · next given =>
      rw [← Option.some.inj same]
      have comments : ∀ l ∈ (lines doc.toList).map (fun l => String.ofList (dropReturns l)),
          CommentText l.toList := by
        intro l member
        obtain ⟨line, here, rfl⟩ := List.mem_map.mp member
        rw [String.toList_ofList]
        exact ⟨fun feed => Text.lineFeed_notMem_of_mem_lines here (mem_of_mem_dropReturns feed),
          getLast?_dropReturns line⟩
      have some : (lines doc.toList).map (fun l => String.ofList (dropReturns l)) ≠ [] := by
        simpa using given
      rw [Text.lines_eq (clean_intercalate some comments),
        rows_intercalate some fun l member => (comments l member).1, List.map_map]
      simp [Function.comp_def]

/-- **Reread directives.** The directives of a text of documentation are those of the text that it
is reread as, even where the two texts differ. -/
theorem parse_bind_reread (doc : Option String) :
    Directives.parse (doc.bind reread) = Directives.parse doc := by
  cases doc with
  | none => rfl
  | some doc =>
      rw [Option.bind_some, Directives.parse, Directives.parseText]
      cases result : reread doc with
      | none =>
          have nothing : lines doc.toList = [] := by
            rw [reread] at result
            split at result
            · next nothing => exact nothing
            · cases result
          rw [nothing]
          rfl
      | some again =>
          have lines_same : (lines again.toList).filterMap ofLine? =
              (lines doc.toList).filterMap ofLine? := by
            rw [lines_of_reread result, Directive.filterMap_ofLine?_closed, List.filterMap_map]
            exact congrArg (List.filterMap · _) (funext ofLine?_dropReturns)
          rw [Directives.parse, Directives.parseText, lines_same]

/-- Items that are the same, spans aside, have the same directives. -/
theorem map_parse_doc_of_bare {ns ms : List Node} (same : ns.map Node.bare = ms.map Node.bare) :
    ns.map (Directives.parse ·.doc) = ms.map (Directives.parse ·.doc) := by
  have docs := congrArg (List.map fun n => Directives.parse n.doc) same
  simpa [Function.comp_def] using docs

/-- **Printing keeps directives.** A unit whose items have the shape of items is read back from its
printed form with as many items, and whatever the texts of documentation look like, the unit and
every item have the directives that they had. -/
theorem parse_print_directives (path : Path) {u : SourceUnit}
    (tops : ∀ n ∈ u.items, TopLevel n) :
    ∃ v, frontend.parse path (frontend.print u) = .ok v ∧
      v.items.length = u.items.length ∧
      Directives.parse v.doc = Directives.parse u.doc ∧
      v.items.map (Directives.parse ·.doc) = u.items.map (Directives.parse ·.doc) := by
  obtain ⟨v, accepted, doc, items⟩ := parse_print_rereadUnit path tops
  refine ⟨v, accepted, ?_, ?_, ?_⟩
  · simpa using congrArg List.length items
  · rw [doc, doc_rereadUnit, parse_bind_reread]
  · rw [map_parse_doc_of_bare items, items_rereadUnit, List.map_map]
    exact List.map_congr_left fun n _ => parse_bind_reread n.doc

/-- A unit none of whose texts of documentation comes back as it was. -/
def untidyUnit : SourceUnit :=
  .ofItems ⟨⟨"untidy.rmc"⟩, ""⟩ (some "macro:use a\r\n\r\n macro:use\tb\r")
    [⟨.reference, "import", .detached, some "", [.literal "a"]⟩,
      ⟨.decl, "fn", .detached, some "\r\n;; macro:use none\n  macro:use c, d \r\r\n\n", []⟩]

theorem topLevel_of_mem_untidyUnit : ∀ n ∈ untidyUnit.items, TopLevel n := by
  intro n member
  rcases List.mem_cons.mp member with rfl | later
  · refine ⟨rfl, by decide, ?_, by decide⟩
    intro c member
    rw [List.mem_singleton.mp member]
    exact .literal
  · rw [List.mem_singleton.mp later]
    exact ⟨rfl, by decide, by simp, by decide⟩

theorem parse_print_directives_untidyUnit : (∀ n ∈ untidyUnit.items, TopLevel n) ∧
    ∃ v, frontend.parse ⟨"again.rmc"⟩ (frontend.print untidyUnit) = .ok v ∧
      v.items.length = 2 ∧
      Directives.parse v.doc = ⟨[⟨"use", ["a", "b"]⟩]⟩ ∧
      v.items.map (Directives.parse ·.doc) = [⟨[]⟩, ⟨[⟨"use", ["c", "d"]⟩]⟩] := by
  obtain ⟨v, accepted, length, unit, items⟩ :=
    parse_print_directives ⟨"again.rmc"⟩ topLevel_of_mem_untidyUnit
  refine ⟨topLevel_of_mem_untidyUnit, v, accepted, length, ?_, ?_⟩
  · rw [unit]
    decide
  · rw [items]
    decide

end Graft.Sexp
