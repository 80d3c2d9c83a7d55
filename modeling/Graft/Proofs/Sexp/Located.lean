import Graft.Proofs.Sexp.CheckedSpans
import Graft.Proofs.Sexp.Spelling

/-!
# Spans and positions of a unit

The spans of a unit that was read say where its nodes are, and so do the positions that they
resolve to. `Located` has what this means. The places are strictly inside one another, as the nodes
are in the tree, and siblings stand apart. Each place is cut out of the text between characters and
spells its node. In the order of the tree, every node before its children, the starts of the places
go up, in bytes as well as in lines and columns, so no two nodes have the same position.

The root has no place: it stands for the whole text.
-/

namespace Graft.Sexp

open Node (Row preorderAll)

/-- The nodes below the root of a unit have places in its text, and resolve to positions there. -/
structure Located (u : SourceUnit) : Prop where
  /-- The places, in bytes: those of children strictly inside, those of siblings apart. -/
  row : Row 0 u.items u.source.text.utf8ByteSize
  /-- What stands at each place. -/
  spelled : ∀ n ∈ preorderAll u.items, ∃ before part after : String,
    u.source.text = before ++ part ++ after ∧ before.utf8ByteSize = n.span.start ∧
      (before ++ part).utf8ByteSize = n.span.stop ∧ Writes part.toList n
  starts : (preorderAll u.items).Pairwise fun a b => a.span.start < b.span.start
  positions : (preorderAll u.items).Pairwise fun a b =>
    (u.source.position a.span).Before (u.source.position b.span)
  distinct : ((preorderAll u.items).map fun n => u.source.position n.span).Nodup
  /-- Neither lines nor columns count further than the characters. -/
  counts : ∀ n ∈ preorderAll u.items, (u.source.position n.span).line ≤ u.source.text.length ∧
    (u.source.position n.span).col ≤ u.source.text.length

/-- A place in a text, seen as a cut of the text in three. -/
theorem SpelledIn.cut {text : String} {n : Node} (spelled : SpelledIn text.toList n) :
    ∃ before part after : String,
      text = before ++ part ++ after ∧ before.utf8ByteSize = n.span.start ∧
        (before ++ part).utf8ByteSize = n.span.stop ∧ Writes part.toList n := by
  obtain ⟨part, ⟨before, after, split, starts, stops⟩, writes⟩ := spelled
  refine ⟨String.ofList before, String.ofList part, String.ofList after, ?_, ?_, ?_, ?_⟩
  · rw [← String.ofList_append, ← String.ofList_append, ← split, String.ofList_toList]
  · rw [← width_eq, starts]
  · rw [← String.ofList_append, ← width_eq, stops]
  · rwa [String.toList_ofList]

variable {path : Path} {text : String} {u : SourceUnit}

/-- Every node that is read from a text stands in it, between characters. -/
theorem cut_of_parse (parsed : frontend.parse path text = .ok u) :
    ∀ n ∈ preorderAll u.items, ∃ before part after : String,
      text = before ++ part ++ after ∧ before.utf8ByteSize = n.span.start ∧
        (before ++ part).utf8ByteSize = n.span.stop ∧ Writes part.toList n := by
  obtain ⟨doc, items, accepted, rfl⟩ := parse_eq_ok_iff.mp parsed
  exact fun n member => (spelledIn_of_read accepted n member).cut

theorem located_of_parse (parsed : frontend.parse path text = .ok u) : Located u := by
  have row := row_of_parse parsed
  have spelled := cut_of_parse parsed
  obtain ⟨doc, items, -, rfl⟩ := parse_eq_ok_iff.mp parsed
  have positions : (preorderAll items).Pairwise fun a b =>
      (Position.ofOffset text a.span.start).Before (Position.ofOffset text b.span.start) := by
    refine row.starts.imp_of_mem ?_
    intro a b here there less
    obtain ⟨before, part, after, cut, starts, -⟩ := spelled a here
    obtain ⟨before', part', after', cut', starts', -⟩ := spelled b there
    rw [← starts, ← starts'] at less ⊢
    rw [String.append_assoc] at cut cut'
    exact Position.before_ofOffset cut cut' less
  refine ⟨row, spelled, row.starts, positions, ?_, ?_⟩
  · exact List.pairwise_map.mpr (positions.imp Position.Before.ne)
  · intro n member
    obtain ⟨before, part, after, cut, starts, stops, -⟩ := spelled n member
    have given := row.given n member
    rw [← starts, ← stops, String.utf8ByteSize_append] at given
    have rest : part ++ after ≠ "" := by
      intro none
      have bytes := congrArg String.utf8ByteSize none
      rw [String.utf8ByteSize_append, String.utf8ByteSize_empty] at bytes
      omega
    rw [String.append_assoc] at cut
    rw [SourceText.position, ← starts]
    exact Position.ofOffset_le_length cut rest

/-- **Places.** No text, accepted or not, makes reading ask for a span whose bounds are in the wrong
order, and the spans and the positions of an accepted text say where its nodes are. -/
theorem parse_located (path : Path) (text : String) :
    Checked.parse path text = .ok (frontend.parse path text) ∧
      ∀ u, frontend.parse path text = .ok u → u.source = ⟨path, text⟩ ∧ Located u := by
  refine ⟨Checked.parse_eq path text, fun u parsed => ⟨?_, located_of_parse parsed⟩⟩
  obtain ⟨doc, items, -, rfl⟩ := parse_eq_ok_iff.mp parsed
  rfl

/-- A text with characters of two bytes, on several lines. -/
def foldedText : String := "; é\n(fn é\n  \"a\\\"é\" (x))\n"

/-- The unit of that text. -/
def foldedUnit : SourceUnit :=
  .ofItems ⟨⟨"a.rmc"⟩, foldedText⟩ none
    [⟨.decl, "fn", ⟨5, 26⟩, some "é", [⟨.ident, "é", ⟨9, 11⟩, none, []⟩,
      ⟨.literal, "a\"é", ⟨14, 21⟩, none, []⟩, ⟨.stmt, "x", ⟨22, 25⟩, none, []⟩]⟩]

/-- Behind the letter of two bytes, columns go on by one. -/
theorem parse_located_foldedText :
    frontend.parse ⟨"a.rmc"⟩ foldedText = .ok foldedUnit ∧ Located foldedUnit ∧
      (preorderAll foldedUnit.items).map (fun n => foldedUnit.source.position n.span) =
        [⟨2, 1⟩, ⟨2, 5⟩, ⟨3, 3⟩, ⟨3, 10⟩] := by
  have parsed : frontend.parse ⟨"a.rmc"⟩ foldedText = .ok foldedUnit := rfl
  exact ⟨parsed, ((parse_located _ _).2 foldedUnit parsed).2, by decide⟩

end Graft.Sexp
