import Graft.Proofs.Sexp.Recognition
import Graft.Proofs.Sexp.RoundTrip
import Graft.Proofs.Sexp.Segments
import Mathlib.Data.List.DropRight
import Mathlib.Data.List.Forall2

/-!
# What the comments of a text document

Seen as segments, a text shows at a glance what its comments document. A comment line adjoins what
comes next if at most one line feed is between the two. The documentation of an item is the longest
run of adjoining comment lines directly before it. A block is a run of comment lines that adjoin one
another, and a block is detached if it adjoins neither the comment before it nor anything behind it.
If a detached block is the first thing in a text, it documents the unit. All other detached blocks
can be left out, as far as the items, what they document and the documentation of the unit go. Of
course the items stand elsewhere then.

`Attached` has the rules. `parse_attaches` says that every text that is accepted can be taken apart
into segments, and that reading follows the rules for every way to do so.
-/

namespace Graft.Sexp

/-- A comment line with at most one line feed between it and what comes next. -/
def Segment.adjoins : Segment → Bool
  | comment _ gap => gap.count '\n' < 2
  | list .. => false

/-- The comment lines among some segments. -/
def linesOf (segments : List Segment) : List (List Char) := segments.filterMap Segment.line?

/-- A text of documentation made of comment lines: their texts, one below the other. -/
def Documents (lines : List (List Char)) (doc : Option String) : Prop :=
  (doc = none ↔ lines = []) ∧ ∀ d, doc = some d →
    ∃ texts, List.Forall₂ Marked lines texts ∧ d.toList = ['\n'].intercalate texts

/-- Comment lines, at least one, that adjoin one another. -/
def Block (segments : List Segment) : Prop :=
  ∃ front line gap, segments = front ++ [.comment line gap] ∧ ∀ s ∈ front, s.adjoins = true

/-- A whole block that adjoins nothing, between other segments. -/
structure Detached (front block later : List Segment) : Prop where
  comments : Block block
  before : ∀ s ∈ front.getLast?, s.adjoins = false
  behind : later = [] ∨ ∀ s ∈ block.getLast?, s.adjoins = false

/-- What the comments among the segments of a text document in its unit. -/
structure Attached (segments : List Segment) (u : SourceUnit) : Prop where
  trees : u.items.map outline = treesOf segments
  items : ∀ front text tree gap later, segments = front ++ .list text tree gap :: later →
    ∃ n, u.items[(treesOf front).length]? = some n ∧ outline n = tree ∧
      Documents (linesOf (front.rtakeWhile Segment.adjoins)) n.doc
  unit : ∀ block later, segments = block ++ later → Detached [] block later →
    Documents (linesOf block) u.doc
  undocumented : (¬ ∃ block later, segments = block ++ later ∧ Detached [] block later) →
    u.doc = none

variable {segments front block later : List Segment} {run : List (List Char)}

/-! ### Texts of documentation -/

theorem toList_intercalate_ofList (texts : List (List Char)) :
    ("\n".intercalate (texts.map String.ofList)).toList = ['\n'].intercalate texts := by
  rw [String.toList_intercalate, List.map_map]
  simp [Function.comp_def]

/-- What reading makes of comment lines. -/
theorem documents_docText (lines : List (List Char)) : Documents lines (docText lines) := by
  by_cases given : lines = []
  · subst given
    exact ⟨by simp [docText, waiting, State.blockText], by simp [docText, waiting, State.blockText]⟩
  · have text : docText lines =
        some ("\n".intercalate ((lines.map commentText).map String.ofList)) := by
      simp [docText, waiting, State.blockText, given, Function.comp_def]
    rw [text]
    refine ⟨by simp [given], fun d same => ⟨lines.map commentText, ?_, ?_⟩⟩
    · exact List.forall₂_map_right_iff.mpr (List.forall₂_same.mpr fun line _ => marked_iff.mpr rfl)
    · rw [← Option.some.inj same, toList_intercalate_ofList]

/-! ### Claims -/

theorem linesOf_append (a b : List Segment) : linesOf (a ++ b) = linesOf a ++ linesOf b :=
  List.filterMap_append

theorem treesOf_append (a b : List Segment) : treesOf (a ++ b) = treesOf a ++ treesOf b :=
  List.filterMap_append

/-- The lines that wait behind some segments are those of the last adjoining comments. -/
theorem foldl_extend (segments : List Segment) :
    segments.foldl Segment.extend [] = linesOf (segments.rtakeWhile Segment.adjoins) := by
  induction segments using List.reverseRecOn with
  | nil => rfl
  | append_singleton segments s ih =>
      rw [List.foldl_append, ih, List.rtakeWhile_concat, List.foldl_cons, List.foldl_nil]
      cases s with
      | comment line gap =>
          simp only [Segment.extend, Segment.adjoins, decide_eq_true_eq]
          split
          · exact (linesOf_append _ [.comment line gap]).symm
          · rfl
      | list text tree gap => rfl

/-- Behind a segment that adjoins nothing, no lines wait. -/
theorem foldl_extend_of_apart (run : List (List Char)) (given : segments ≠ [])
    (apart : ∀ s ∈ segments.getLast?, s.adjoins = false) :
    segments.foldl Segment.extend run = [] := by
  rcases List.eq_nil_or_concat segments with rfl | ⟨front, s, rfl⟩
  · exact absurd rfl given
  · have last := apart s (by simp)
    rw [List.concat_eq_append, List.foldl_append, List.foldl_cons, List.foldl_nil]
    cases s with
    | comment line gap => exact if_neg (by simpa [Segment.adjoins] using last)
    | list text tree gap => rfl

theorem claims_append (run : List (List Char)) (front later : List Segment) :
    claims run (front ++ later) =
      claims run front ++ claims (front.foldl Segment.extend run) later := by
  induction front generalizing run with
  | nil => rfl
  | cons s front ih =>
      cases s with
      | comment line gap => exact ih _
      | list text tree gap =>
          rw [List.cons_append, claims, claims, ih]
          rfl

/-- Every list claims the longest run of adjoining comments before it. -/
theorem getElem?_claims (front : List Segment) (text : List Char) (tree : Node) (gap : List Char)
    (later : List Segment) :
    (claims [] (front ++ .list text tree gap :: later))[(treesOf front).length]? =
      some (linesOf (front.rtakeWhile Segment.adjoins), tree) := by
  have before : (treesOf front).length = (claims [] front).length := by
    rw [← map_snd_claims [] front, List.length_map]
  rw [claims_append, foldl_extend, before, List.getElem?_append_right (Nat.le_refl _), Nat.sub_self,
    claims, List.getElem?_cons_zero]

/-! ### The documentation of the unit -/

theorem unitLines_append (run : List (List Char)) (adjoining : ∀ s ∈ front, s.adjoins = true)
    (later : List Segment) :
    unitLines run (front ++ later) = unitLines (run ++ linesOf front) later := by
  induction front generalizing run with
  | nil => rw [List.nil_append, linesOf, List.filterMap_nil, List.append_nil]
  | cons s front ih =>
      rw [List.forall_mem_cons] at adjoining
      cases s with
      | comment line gap =>
          have narrow : gap.count '\n' < 2 := by simpa [Segment.adjoins] using adjoining.1
          rw [List.cons_append, unitLines, if_pos narrow, ih _ adjoining.2, List.append_assoc]
          rfl
      | list text tree gap => cases adjoining.1

/-- Nothing counts for the unit behind a segment that adjoins nothing. -/
theorem unitLines_of_apart (run : List (List Char)) {s : Segment} (member : s ∈ front)
    (apart : s.adjoins = false) (later later' : List Segment) :
    unitLines run (front ++ later) = unitLines run (front ++ later') := by
  induction front generalizing run with
  | nil => cases member
  | cons first front ih =>
      cases first with
      | comment line gap =>
          rw [List.cons_append, List.cons_append, unitLines, unitLines]
          split
          · next narrow =>
              refine ih _ ((List.mem_cons.mp member).resolve_left ?_)
              rintro rfl
              simp [Segment.adjoins, narrow] at apart
          · rfl
      | list text tree gap => rfl

/-- A detached block at the start of a text documents the unit. -/
theorem unitLines_of_detached (detached : Detached [] block later) :
    unitLines [] (block ++ later) = linesOf block := by
  obtain ⟨⟨front, line, gap, rfl, adjoining⟩, -, behind⟩ := detached
  rw [List.append_assoc, unitLines_append [] adjoining, List.nil_append, List.singleton_append,
    unitLines, linesOf_append]
  split
  · next narrow =>
      rcases behind with rfl | apart
      · rfl
      · have last := apart (.comment line gap) (by simp)
        simp [Segment.adjoins, narrow] at last
  · rfl

/-- If any lines document the unit, they are those of a detached block at the start. -/
theorem exists_detached (run : List (List Char)) (segments : List Segment) :
    unitLines run segments = [] ∨ segments = [] ∨
      ∃ block later, segments = block ++ later ∧ Detached [] block later := by
  induction segments generalizing run with
  | nil => exact Or.inr (Or.inl rfl)
  | cons s segments ih =>
      cases s with
      | comment line gap =>
          have alone : Block [.comment line gap] := ⟨[], line, gap, rfl, by simp⟩
          by_cases narrow : gap.count '\n' < 2
          · rw [unitLines, if_pos narrow]
            refine (ih (run ++ [line])).imp_right fun rest => Or.inr ?_
            rcases rest with rfl | ⟨block, later, rfl, detached⟩
            · exact ⟨[.comment line gap], [], rfl, alone, by simp, Or.inl rfl⟩
            · obtain ⟨⟨front, line', gap', rfl, adjoining⟩, -, behind⟩ := detached
              refine ⟨.comment line gap :: (front ++ [.comment line' gap']), later, rfl,
                ⟨.comment line gap :: front, line', gap', rfl, ?_⟩, by simp, ?_⟩
              · exact List.forall_mem_cons.mpr ⟨by simpa [Segment.adjoins] using narrow, adjoining⟩
              · rwa [← List.cons_append, List.getLast?_concat, ← List.getLast?_concat (l := front)]
          · refine Or.inr (Or.inr ⟨[.comment line gap], segments, rfl, alone, by simp, Or.inr ?_⟩)
            simpa [Segment.adjoins] using narrow
      | list text tree gap => exact Or.inl rfl

/-! ### Blocks that document nothing -/

theorem Arranged.right (arranged : Arranged (block ++ later)) : Arranged later := by
  induction block with
  | nil => exact arranged
  | cons s block ih =>
      cases arranged with
      | comment _ _ _ _ more => exact ih more
      | list _ _ more => exact ih more

theorem Arranged.without (arranged : Arranged (front ++ block ++ later)) (given : block ≠ []) :
    Arranged (front ++ later) := by
  rw [List.append_assoc] at arranged
  induction front with
  | nil => exact Arranged.right arranged
  | cons s front ih =>
      cases arranged with
      | comment single layout whole ended more =>
          refine .comment single layout whole (fun none => ?_) (ih more)
          have nothing := ended none
          simp [given] at nothing
      | list whole layout more => exact .list whole layout (ih more)

theorem Block.ne_nil (comments : Block block) : block ≠ [] := by
  obtain ⟨front, line, gap, rfl, -⟩ := comments
  simp

theorem Block.treesOf (comments : Block block) : treesOf block = [] := by
  obtain ⟨front, line, gap, rfl, adjoining⟩ := comments
  rw [treesOf_append, List.append_eq_nil_iff]
  refine ⟨List.filterMap_eq_nil_iff.mpr fun s member => ?_, rfl⟩
  cases s with
  | comment line gap => rfl
  | list text tree gap => cases adjoining _ member

/-- No list claims the lines of a detached block behind other segments. -/
theorem claims_of_detached (given : front ≠ []) (detached : Detached front block later) :
    claims [] (front ++ block ++ later) = claims [] (front ++ later) := by
  have waits := foldl_extend_of_apart [] given detached.before
  have none : claims [] block = [] := by
    rw [← List.map_eq_nil_iff (f := Prod.snd), map_snd_claims, detached.comments.treesOf]
  rw [List.append_assoc, claims_append, claims_append, claims_append, waits, none, List.nil_append]
  rcases detached.behind with rfl | apart
  · rfl
  · rw [foldl_extend_of_apart [] detached.comments.ne_nil apart]

/-- The lines of a detached block behind other segments do not document the unit. -/
theorem unitLines_without (given : front ≠ []) (detached : Detached front block later) :
    unitLines [] (front ++ block ++ later) = unitLines [] (front ++ later) := by
  rcases List.eq_nil_or_concat front with rfl | ⟨init, s, rfl⟩
  · exact absurd rfl given
  · have apart := detached.before s (by simp)
    rw [List.append_assoc]
    exact unitLines_of_apart [] (by simp) apart _ _

/-! ### Reading -/

variable {lead : List Char} {text : List Char}

theorem parse_of_arranges {source : String} (path : Path)
    (arranges : Arranges lead segments source.toList) :
    ∃ u, frontend.parse path source = .ok u ∧ u.doc = docText (unitLines [] segments) ∧
      u.items.map Node.bare = (claims [] segments).map documented := by
  obtain ⟨s, items, ran, finished, same⟩ := State.yields_of_arranges arranges
  exact ⟨_, parse_eq_ok_iff.mpr ⟨_, items, read_eq_ok_iff.mpr ⟨s, ran, finished⟩, rfl⟩, rfl, same⟩

theorem attached_of_read {u : SourceUnit} (arranged : Arranged segments)
    (doc : u.doc = docText (unitLines [] segments))
    (items : u.items.map Node.bare = (claims [] segments).map documented) :
    Attached segments u := by
  refine ⟨map_outline_of_claims arranged items, ?_, ?_, ?_⟩
  · rintro front text tree gap later rfl
    have here := congrArg (·[(treesOf front).length]?) items
    simp only [List.getElem?_map, getElem?_claims, Option.map_some] at here
    obtain ⟨n, found, same⟩ := Option.map_eq_some_iff.mp here
    refine ⟨n, found, ?_, ?_⟩
    · rw [outline, same]
      exact eq_of_documented arranged
        (List.mem_of_getElem? (getElem?_claims front text tree gap later))
    · rw [← Node.doc_bare, same]
      exact documents_docText _
  · rintro block later rfl detached
    rw [doc, unitLines_of_detached detached]
    exact documents_docText _
  · intro none
    rw [doc]
    rcases exists_detached [] segments with nothing | rfl | some
    · rw [nothing]
      rfl
    · rfl
    · exact absurd some none

/-- **Attachment.** Every text that is accepted is layout followed by comment lines and lists with
layout behind each, and however it is taken apart, its comments document what the rules say. Every
detached block behind something else can be left out: what is left is read as a unit with the same
documentation and the same items, except that they stand elsewhere. -/
theorem parse_attaches (path : Path) (source : String) :
    (∀ u, frontend.parse path source = .ok u →
      ∃ lead segments, Arranges lead segments source.toList) ∧
    ∀ lead segments, Arranges lead segments source.toList →
      ∃ u, frontend.parse path source = .ok u ∧ Attached segments u ∧
        ∀ front block later, segments = front ++ block ++ later → front ≠ [] →
          Detached front block later →
          ∃ v, frontend.parse path (String.ofList (lead ++ textOf (front ++ later))) = .ok v ∧
            Alike v u := by
  constructor
  · intro u parsed
    obtain ⟨doc, items, accepted, -⟩ := parse_eq_ok_iff.mp parsed
    obtain ⟨trees, unit, shallow⟩ := derives_of_read accepted
    obtain ⟨lead, segments, arranges, -⟩ := arranges_of_unitText unit shallow
    exact ⟨lead, segments, arranges⟩
  · intro lead segments arranges
    obtain ⟨u, parsed, doc, items⟩ := parse_of_arranges path arranges
    refine ⟨u, parsed, attached_of_read arranges.arranged doc items, ?_⟩
    rintro front block later rfl given detached
    have rest : Arranges lead (front ++ later)
        (String.ofList (lead ++ textOf (front ++ later))).toList :=
      ⟨String.toList_ofList, arranges.layout,
        arranges.arranged.without detached.comments.ne_nil⟩
    obtain ⟨v, parsed', doc', items'⟩ := parse_of_arranges path rest
    refine ⟨v, parsed', ?_, ?_⟩
    · rw [doc, doc', unitLines_without given detached]
    · rw [items, items', claims_of_detached given detached]

/-- Two comment lines for the unit, and a block that is dropped. -/
def remarkedFront : List Segment :=
  [.comment " unit".toList ['\n'], .comment "; more\r".toList ['\n', '\n']]

def remarkedBlock : List Segment := [.comment " lost".toList ['\n', ' ', '\n']]

/-- Two lists, with two comment lines directly above the second and one behind it. -/
def remarkedLists : List Segment :=
  [.list "(import \"a\")".toList (.list .reference "import" [.literal "a"]) ['\n'],
    .comment [] ['\n'], .comment " first".toList ['\n'],
    .list "(fn X)".toList (.list .decl "fn" [.ident "X"]) [' '], .comment " last".toList []]

def remarkedText : String :=
  "; unit\n;; more\r\n\n; lost\n \n(import \"a\")\n;\n; first\n(fn X) ; last"

def remarkedUnit : SourceUnit :=
  .ofItems ⟨⟨"a.rmc"⟩, remarkedText⟩ (some "unit\nmore")
    [⟨.reference, "import", ⟨26, 38⟩, none, [⟨.literal, "a", ⟨34, 37⟩, none, []⟩]⟩,
      ⟨.decl, "fn", ⟨49, 55⟩, some "\nfirst", [⟨.ident, "X", ⟨53, 54⟩, none, []⟩]⟩]

theorem listText_import :
    ListText "(import \"a\")".toList (.list .reference "import" [.literal "a"]) := by
  have opens : Opening "import".toList "import" := ⟨[], by simp, by decide, rfl⟩
  have string : StringText ['a', '"'] ['a'] := .plain (by decide) (by decide) .close
  have inner : Body .reference " \"a\")".toList [.literal "a"] :=
    .layout (by decide) (.string string .close)
  exact .intro opens (by simp [EndsSymbol]; decide) inner (by decide)

theorem listText_fn : ListText "(fn X)".toList (.list .decl "fn" [.ident "X"]) := by
  have opens : Opening "fn".toList "fn" := ⟨[], by simp, by decide, rfl⟩
  have symbol : IsSymbol "X" := by decide
  have inner : Body .decl " X)".toList [.ident "X"] :=
    .layout (by decide) (.symbol symbol (by simp [EndsSymbol]; decide) .close)
  exact .intro opens (by simp [EndsSymbol]; decide) inner (by decide)

theorem arranges_remarkedText :
    Arranges [] (remarkedFront ++ remarkedBlock ++ remarkedLists) remarkedText.toList := by
  refine ⟨rfl, by simp, ?_⟩
  have layout : ∀ gap : List Char, gap.all Text.isLayout = true →
      ∀ c ∈ gap, Text.isLayout c = true := fun _ => List.all_eq_true.mp
  have feed : ∀ gap, EndsLine ('\n' :: gap) := fun gap c first => (Option.some.inj first).symm
  exact .comment (by decide) (layout _ rfl) (feed _) (by simp)
    (.comment (by decide) (layout _ rfl) (feed _) (by simp)
    (.comment (by decide) (layout _ rfl) (feed _) (by simp)
    (.list listText_import (layout _ rfl)
    (.comment (by decide) (layout _ rfl) (feed _) (by simp)
    (.comment (by decide) (layout _ rfl) (feed _) (by simp)
    (.list listText_fn (layout _ rfl)
    (.comment (by decide) (layout _ rfl) (by simp [EndsLine]) (fun _ => rfl) .nil)))))))

theorem parse_remarkedText : frontend.parse ⟨"a.rmc"⟩ remarkedText = .ok remarkedUnit := rfl

theorem detached_remarkedBlock : Detached remarkedFront remarkedBlock remarkedLists :=
  ⟨⟨[], _, _, rfl, by simp⟩, by decide, Or.inr (by decide)⟩

/-- The comments above the first item are for the unit, and those above the second are for it. -/
theorem parse_attaches_remarkedText :
    Arranges [] (remarkedFront ++ remarkedBlock ++ remarkedLists) remarkedText.toList ∧
      frontend.parse ⟨"a.rmc"⟩ remarkedText = .ok remarkedUnit ∧
      Attached (remarkedFront ++ remarkedBlock ++ remarkedLists) remarkedUnit ∧
      ∃ v, frontend.parse ⟨"a.rmc"⟩ (String.ofList (textOf (remarkedFront ++ remarkedLists))) =
        .ok v ∧ Alike v remarkedUnit := by
  obtain ⟨u, parsed, attached, others⟩ :=
    (parse_attaches ⟨"a.rmc"⟩ remarkedText).2 _ _ arranges_remarkedText
  obtain rfl : remarkedUnit = u := Except.ok.inj (parse_remarkedText.symm.trans parsed)
  have dropped := others remarkedFront remarkedBlock remarkedLists rfl (List.cons_ne_nil _ _)
    detached_remarkedBlock
  rw [List.nil_append] at dropped
  exact ⟨arranges_remarkedText, parse_remarkedText, attached, dropped⟩

end Graft.Sexp
