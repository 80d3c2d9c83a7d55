import Graft.Proofs.Path.Names
import Mathlib.Data.List.Induction

/-!
# Paths put together from pieces

`ofPieces` puts pieces together with separators, and the pieces of such a path are those again.
The parent of a path whose last piece is a name is put together from the pieces before it, without
those at their end that lead nowhere. So the names of a parent are those of the path without the
last one.
-/

namespace Graft

namespace Path

variable {p q : Path} {name : String} {init ns ps : List String} {absolute : Bool}

/-- The path with the given pieces. -/
def ofPieces (absolute : Bool) (ps : List String) : Path :=
  ⟨(if absolute then "/" else "") ++ "/".intercalate ps⟩

/-- What separators put together they cut apart again. -/
theorem pieces_intercalate (whole : ∀ piece ∈ ps, '/' ∉ piece.toList) (given : ps ≠ []) :
    (Text.pieces (· == '/') ("/".intercalate ps).toList).map String.ofList = ps := by
  have chars : ("/".intercalate ps).toList = ['/'].intercalate (ps.map String.toList) := by simp
  rw [chars, Text.pieces_eq_splitOnP, ← List.splitOn_eq_splitOnP, List.splitOn_intercalate,
    List.map_map]
  · simp [Function.comp_def]
  · simpa using whole
  · simpa using given

/-- A list of pieces that a path of a sort can have: a relative path does not start with a
separator. -/
structure Fits (absolute : Bool) (ps : List String) : Prop where
  whole : ∀ piece ∈ ps, '/' ∉ piece.toList
  starts : absolute = false → ps.head? ≠ some ""

theorem fits_of_steps (steps : ∀ n ∈ ns, IsStep n) : Fits absolute ns := by
  refine ⟨fun n member => (steps n member).whole, ?_⟩
  intro _ first
  exact (steps "" (List.mem_of_head? first)).given rfl

theorem isAbsolute_ofPieces (fits : Fits absolute ps) :
    (ofPieces absolute ps).isAbsolute = absolute := by
  cases absolute with
  | true => simp [ofPieces, isAbsolute]
  | false =>
      cases ps with
      | nil => rfl
      | cons first rest =>
          have given : first ≠ "" := by simpa using fits.starts rfl
          have whole := fits.whole first List.mem_cons_self
          cases chars : first.toList with
          | nil => exact absurd (String.toList_inj.mp chars) given
          | cons c more =>
              have other : c ≠ '/' := by
                rintro rfl
                simp [chars] at whole
              cases rest <;>
                simp [ofPieces, isAbsolute, String.toList_intercalate, chars, other]

theorem pieces_ofPieces (fits : Fits absolute ps) :
    (ofPieces absolute ps).pieces = if ps = [] then [""] else ps := by
  have body : (ofPieces absolute ps).body = ("/".intercalate ps).toList := by
    rw [Path.body, isAbsolute_ofPieces fits]
    cases absolute <;> simp [ofPieces]
  rw [pieces_eq, body]
  split
  · next none => simp [none]
  · next given => exact pieces_intercalate fits.whole given

theorem names_ofPieces (fits : Fits absolute ps) :
    (ofPieces absolute ps).names = ps.filter counts := by
  rw [names, pieces_ofPieces fits]
  split
  · next none => rw [none]; rfl
  · rfl

/-- A path put together from names ends with a character of its last name. -/
theorem getLast?_text_ofPieces (steps : ∀ n ∈ ns, IsStep n) (given : ns ≠ []) :
    ∃ c, (ofPieces false ns).text.toList.getLast? = some c ∧ c ≠ '/' := by
  rcases List.eq_nil_or_concat ns with rfl | ⟨front, last, rfl⟩
  · exact absurd rfl given
  · rw [List.concat_eq_append] at steps ⊢
    have step := steps last (by simp)
    have chars : last.toList ≠ [] := fun none => step.given (String.toList_inj.mp none)
    refine ⟨last.toList.getLast chars, ?_, ?_⟩
    · have ends : ("/".intercalate (front ++ [last])).toList.getLast? = last.toList.getLast? := by
        by_cases none : front = []
        · simp [none]
        · rw [String.intercalate_append_of_ne_nil none (by simp), String.toList_append,
            String.intercalate_singleton, List.getLast?_append, List.getLast?_eq_some_getLast chars,
            Option.some_or]
      simpa [ofPieces] using ends.trans (List.getLast?_eq_some_getLast chars)
    · intro separator
      exact step.whole (separator ▸ List.getLast_mem chars)

theorem join_ofPieces (steps : ∀ n ∈ ns, IsStep n) (step : IsStep name) :
    (ofPieces false ns).join ⟨name⟩ = ofPieces false (ns ++ [name]) := by
  unfold join
  rw [step.isAbsolute]
  by_cases none : ns = []
  · simp [none, ofPieces]
  · obtain ⟨c, ends, other⟩ := getLast?_text_ofPieces steps none
    have given : (ofPieces false ns).text ≠ "" := by
      intro empty
      rw [empty] at ends
      cases ends
    rw [if_neg Bool.false_ne_true, if_neg]
    · simp [ofPieces, String.intercalate_append_of_ne_nil none]
    · simp [given, ends, other]

/-- Names one below the other, from the empty path. -/
theorem below_empty (steps : ∀ n ∈ ns, IsStep n) : below ⟨""⟩ ns = ofPieces false ns := by
  induction ns using List.reverseRecOn with
  | nil => rfl
  | append_singleton front last ih =>
      have before : ∀ n ∈ front, IsStep n := fun n member => steps n (List.mem_append_left _ member)
      have whole : below ⟨""⟩ (front ++ [last]) = (below ⟨""⟩ front).join ⟨last⟩ := by
        simp [below, List.foldl_append]
      rw [whole, ih before, join_ofPieces before (steps last (by simp))]

/-- Joining one path after the other is joining them all. -/
theorem join_join {r : Path} (relative : q.isAbsolute = false) (given : q.text.toList ≠ [])
    (relative' : r.isAbsolute = false) : (p.join q).join r = p.join (q.join r) := by
  have below : (q.join r).isAbsolute = false := by rw [isAbsolute_join relative', relative]
  have chars : ((p.join q).join r).text.toList = (p.join (q.join r)).text.toList := by
    rw [toList_join relative', toList_join below, toList_join relative, toList_join relative']
    have last : ∀ front : List Char,
        (front ++ q.text.toList).getLast? = q.text.toList.getLast? := fun front => by
      rw [List.getLast?_append, List.getLast?_eq_some_getLast given, Option.some_or]
    by_cases open' : p.text.toList = [] ∨ p.text.toList.getLast? = some '/'
    · simp only [if_pos open', last, given, List.append_eq_nil_iff, and_false, false_or]
      split <;> simp
    · simp only [if_neg open', List.append_cons p.text.toList '/' q.text.toList, last, given,
        List.append_eq_nil_iff, and_false, false_or]
      split <;> simp
  exact congrArg Path.mk (String.toList_inj.mp chars)

/-- Names one below the other are one relative path. -/
theorem below_eq_join (base : Path) (steps : ∀ n ∈ ns, IsStep n) (given : ns ≠ []) :
    base.below ns = base.join (ofPieces false ns) := by
  induction ns using List.reverseRecOn with
  | nil => exact absurd rfl given
  | append_singleton front last ih =>
      have before : ∀ n ∈ front, IsStep n := fun n member => steps n (List.mem_append_left _ member)
      have step : IsStep last := steps last (by simp)
      have whole : base.below (front ++ [last]) = (base.below front).join ⟨last⟩ := by
        simp [below, List.foldl_append]
      rw [whole]
      by_cases none : front = []
      · simp [none, below, ofPieces]
      · obtain ⟨c, ends, -⟩ := getLast?_text_ofPieces before none
        have chars : (ofPieces false front).text.toList ≠ [] := by
          intro empty
          rw [empty] at ends
          cases ends
        rw [ih before none, join_join (isAbsolute_ofPieces (fits_of_steps before)) chars
          step.isAbsolute, join_ofPieces before step]

/-! ### Components -/

theorem lead_ofPieces (steps : ∀ n ∈ ns, IsStep n) : (ofPieces false ns).lead = [] := by
  have fits : Fits false ns := fits_of_steps steps
  rw [lead, isAbsolute_ofPieces fits, pieces_ofPieces fits]
  cases ns with
  | nil => rfl
  | cons first rest => simp [(steps first List.mem_cons_self).notHere]

theorem names_ofPieces_of_steps (steps : ∀ n ∈ ns, IsStep n) :
    (ofPieces absolute ns).names = ns := by
  rw [names_ofPieces (fits_of_steps steps)]
  exact List.filter_eq_self.mpr fun n member => (steps n member).counts

theorem lead_join (relative : q.isAbsolute = false) (plain : q.lead = []) :
    (p.join q).lead = p.lead := by
  have other : q.pieces.head? ≠ some "." := by
    intro here
    simp [lead, relative, here] at plain
  have first : (p.dirPieces ++ q.pieces).head? = some "." ↔ p.pieces.head? = some "." := by
    unfold dirPieces
    split
    · next last =>
        obtain ⟨front, split⟩ := List.getLast?_eq_some_iff.mp last
        rw [split, List.dropLast_concat]
        cases front <;> simp [other]
    · cases split : p.pieces with
      | nil => exact absurd split p.pieces_ne_nil
      | cons piece rest => simp
  simp only [lead, isAbsolute_join relative, pieces_join relative, first]

/-- Joining appends the components of a relative path that does not start with `.`. -/
theorem components_join (relative : q.isAbsolute = false) (plain : q.lead = []) :
    (p.join q).components = p.components ++ q.names.map named := by
  rw [components_eq, components_eq, lead_join relative plain, names_join relative, List.map_append,
    List.append_assoc]

/-- What a join adds to a path. -/
theorem componentsAfter?_join (relative : q.isAbsolute = false) (plain : q.lead = []) :
    (p.join q).componentsAfter? p = some (q.names.map named) := by
  simp [componentsAfter?, startsWith, components_join relative plain]

theorem componentsAfter?_self (p : Path) : p.componentsAfter? p = some [] := by
  simp [componentsAfter?, startsWith]

/-! ### Parents -/

theorem componentOf_of_counts (leading : Bool) (counted : counts name = true) :
    componentOf leading name = some (named name) := by
  simp only [counts, Bool.and_eq_true, decide_eq_true_eq, ne_eq] at counted
  unfold componentOf named
  rw [if_neg counted.1, if_neg counted.2]
  split <;> rfl

theorem parts_map_fst (p : Path) : p.parts.map (·.1) = p.pieces := by
  unfold parts
  split
  · next none => rw [none]; rfl
  · next first rest split => simp [split, Function.comp_def]

/-- A piece that counts stands for the component it names. -/
theorem snd_of_mem_parts {part : String × Option Component} (member : part ∈ p.parts)
    (counted : counts part.1 = true) : part.2 = some (named part.1) := by
  unfold parts at member
  split at member
  · cases member
  · rcases List.mem_cons.mp member with rfl | later
    · exact componentOf_of_counts _ counted
    · obtain ⟨piece, -, rfl⟩ := List.mem_map.mp later
      exact componentOf_of_counts _ counted

/-- The parent of a path whose last piece is a name has the pieces before it, but for some at
their end that lead nowhere. -/
theorem parent?_eq_some (split : p.pieces = init ++ [name]) (counted : counts name = true) :
    ∃ kept dropped, init = kept ++ dropped ∧ (∀ piece ∈ dropped, counts piece = false) ∧
      p.parent? = some (ofPieces p.isAbsolute kept) := by
  have cut := p.parts_map_fst
  rw [split] at cut
  obtain ⟨before, last, parts, firsts, lasts⟩ := List.map_eq_append_iff.mp cut
  obtain ⟨part, rfl, rfl⟩ := List.map_eq_singleton_iff.mp lasts
  have inside : part ∈ p.parts := by simp [parts]
  have stands := snd_of_mem_parts inside counted
  let blank : String × Option Component → Bool := fun part => part.2.isNone
  refine ⟨(before.reverse.dropWhile blank).reverse.map (·.1),
    (before.reverse.takeWhile blank).reverse.map (·.1), ?_, ?_, ?_⟩
  · rw [← firsts, ← List.map_append, ← List.reverse_append, List.takeWhile_append_dropWhile,
      List.reverse_reverse]
  · intro piece member
    obtain ⟨other, inside, rfl⟩ := List.mem_map.mp member
    rw [List.mem_reverse] at inside
    have skipped : blank other = true := List.all_eq_true.mp List.all_takeWhile other inside
    have given : other ∈ p.parts := by
      rw [parts]
      exact List.mem_append_left _
        (List.mem_reverse.mp ((List.takeWhile_sublist blank).subset inside))
    rw [← Bool.not_eq_true]
    intro counted
    simp [blank, snd_of_mem_parts given counted] at skipped
  · simp [parent?, parts, stands, ofPieces, blank]

end Path

end Graft
