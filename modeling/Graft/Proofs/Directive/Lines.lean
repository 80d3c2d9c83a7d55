import Graft.Directive
import Graft.Proofs.Text.Pieces
import Graft.Proofs.Text.Rows
import Mathlib.Data.List.TakeWhile

/-!
# Lines with directives

`StandsOn` says what a line with a directive looks like: blanks, the mark, a name, and then the end
of the line or a blank with anything behind it, whose words are the arguments. `ofLine?_eq_some_iff`
says that the lines of this form are read as their directives and all others are passed over.

Blanks at the end of a line belong to no directive: with them and without them the line holds the
same directive, or none. They neither complete the mark nor continue the name, and behind the
arguments they are one more separator. In front of the mark blanks are passed over too, but between
the mark and the name they are not.
-/

namespace Graft.Directive

variable {c : Char} {line rest : List Char} {d : Directive}

/-! ### The form of a line -/

/-- A letter or a low line, and then letters, digits, low lines and hyphens. -/
def IsName : List Char → Prop
  | [] => False
  | c :: more => (c.isAlpha = true ∨ c = '_') ∧
    ∀ d ∈ more, d.isAlphanum = true ∨ d = '_' ∨ d = '-'

/-- A directive stands on a line. -/
def StandsOn (d : Directive) (line : List Char) : Prop :=
  ∃ blanks tail, line = blanks ++ ("macro:".toList ++ (d.name.toList ++ tail)) ∧
    (∀ c ∈ blanks, Text.isBlank c = true) ∧ IsName d.name.toList ∧
    (∀ c ∈ tail.head?, Text.isBlank c = true) ∧
    Text.HasWords (fun c => c = ',' ∨ Text.isBlank c = true) tail (d.args.map String.toList)

theorem isNameChar_of_isBlank (blank : Text.isBlank c = true) : isNameChar c = false := by
  apply Bool.eq_false_iff.mpr
  intro named
  delta isNameChar Char.isAlphanum Char.isAlpha Char.isUpper Char.isLower Char.isDigit at named
  simp only [Bool.or_eq_true, Bool.and_eq_true, decide_eq_true_eq, beq_iff_eq, ge_iff_le,
    UInt32.le_iff_toNat_le] at named
  simp only [Text.isBlank, Bool.or_eq_true, Bool.and_eq_true, decide_eq_true_eq,
    beq_iff_eq] at blank
  change ((((65 ≤ c.toNat ∧ c.toNat ≤ 90) ∨ (97 ≤ c.toNat ∧ c.toNat ≤ 122)) ∨
    (48 ≤ c.toNat ∧ c.toNat ≤ 57)) ∨ c = '_') ∨ c = '-' at named
  rcases named with (letterOrDigit | rfl) | rfl
  · omega
  · simp at blank
  · simp at blank

theorem isName_iff {name : List Char} :
    IsName name ↔ name.head?.any isNameStart = true ∧ ∀ c ∈ name, isNameChar c = true := by
  cases name with
  | nil => simp [IsName]
  | cons c more =>
      have starts : isNameStart c = true → isNameChar c = true := by
        simp only [isNameStart, isNameChar, Char.isAlphanum, Bool.or_eq_true]
        rintro (letter | low)
        · exact Or.inl (Or.inl (Or.inl letter))
        · exact Or.inl (Or.inr low)
      rw [List.forall_mem_cons, List.head?_cons, Option.any_some, IsName]
      constructor
      · rintro ⟨first, others⟩
        have here : isNameStart c = true := by simpa [isNameStart] using first
        exact ⟨here, starts here, fun d member => by
          simpa [isNameChar, or_assoc] using others d member⟩
      · rintro ⟨first, -, others⟩
        exact ⟨by simpa [isNameStart] using first, fun d member => by
          simpa [isNameChar, or_assoc] using others d member⟩

theorem afterMark?_eq_some_iff : afterMark? line = some rest ↔
    ∃ blanks, line = blanks ++ (mark ++ rest) ∧ ∀ c ∈ blanks, Text.isBlank c = true := by
  rw [afterMark?]
  constructor
  · intro found
    split at found
    · next marked =>
        obtain ⟨after, whole⟩ := List.isPrefixOf_iff_prefix.mp marked
        refine ⟨line.takeWhile Text.isBlank, ?_, fun c member => List.mem_takeWhile_imp member⟩
        rw [← whole, List.drop_left, Option.some.injEq] at found
        rw [← found, whole, List.takeWhile_append_dropWhile]
    · cases found
  · rintro ⟨blanks, rfl, blank⟩
    have solid : (mark ++ rest).dropWhile Text.isBlank = mark ++ rest := by
      simp [mark, Text.isBlank]
    have start : (blanks ++ (mark ++ rest)).dropWhile Text.isBlank = mark ++ rest := by
      rw [List.dropWhile_append_of_pos blank, solid]
    rw [start, if_pos (List.isPrefixOf_iff_prefix.mpr (List.prefix_append mark rest)),
      List.drop_left]

theorem ofMarked?_eq_some_iff : ofMarked? rest = some d ↔
    ∃ tail, rest = d.name.toList ++ tail ∧ IsName d.name.toList ∧
      (∀ c ∈ tail.head?, Text.isBlank c = true) ∧
      Text.words isSeparator tail = d.args.map String.toList := by
  rw [ofMarked?]
  constructor
  · intro found
    split at found
    · next fits =>
        cases found
        rw [Bool.and_eq_true, Option.all_eq_true] at fits
        refine ⟨rest.dropWhile isNameChar, ?_, ?_, fits.2, ?_⟩
        · rw [String.toList_ofList, List.takeWhile_append_dropWhile]
        · rw [String.toList_ofList, isName_iff]
          exact ⟨fits.1, fun c member => List.mem_takeWhile_imp member⟩
        · simp [Function.comp_def]
    · cases found
  · rintro ⟨tail, rfl, named, blank, arguments⟩
    obtain ⟨starts, chars⟩ := isName_iff.mp named
    have stops : ∀ c ∈ tail.head?, isNameChar c = false := fun c first =>
      isNameChar_of_isBlank (blank c first)
    have ends : tail.takeWhile isNameChar = [] ∧ tail.dropWhile isNameChar = tail := by
      cases tail with
      | nil => exact ⟨rfl, rfl⟩
      | cons c tail => simp [stops c rfl]
    have name : (d.name.toList ++ tail).takeWhile isNameChar = d.name.toList := by
      rw [List.takeWhile_append_of_pos chars, ends.1, List.append_nil]
    have after : (d.name.toList ++ tail).dropWhile isNameChar = tail := by
      rw [List.dropWhile_append_of_pos chars, ends.2]
    have fits : (d.name.toList.head?.any isNameStart && tail.head?.all Text.isBlank) = true := by
      rw [Bool.and_eq_true, Option.all_eq_true]
      exact ⟨starts, blank⟩
    rw [name, after, if_pos fits, arguments]
    simp [Function.comp_def]

/-- **Lines with directives.** -/
theorem ofLine?_eq_some_iff : ofLine? line = some d ↔ d.StandsOn line := by
  have separators : isSeparator = fun c => c = ',' ∨ Text.isBlank c = true := by
    funext c
    rw [isSeparator, Bool.eq_iff_iff]
    simp
  rw [ofLine?, Option.bind_eq_some_iff]
  simp only [afterMark?_eq_some_iff, ofMarked?_eq_some_iff, Text.words_eq_iff, separators]
  constructor
  · rintro ⟨after, ⟨blanks, rfl, blank⟩, tail, rfl, named, ends, arguments⟩
    exact ⟨blanks, tail, rfl, blank, named, ends, arguments⟩
  · rintro ⟨blanks, tail, rfl, blank, named, ends, arguments⟩
    exact ⟨_, ⟨blanks, rfl, blank⟩, tail, rfl, named, ends, arguments⟩

/-! ### Blanks at the end of a line -/

/-- A blank behind the text of a mark is no part of it. -/
theorem afterMark?_concat (blank : Text.isBlank c = true) (line : List Char) :
    afterMark? (line ++ [c]) = (afterMark? line).map (· ++ [c]) := by
  unfold afterMark?
  rw [List.dropWhile_append]
  split
  · next nothing =>
      rw [List.isEmpty_iff.mp nothing]
      simp [blank, mark]
  · have solid : mark ≠ line.dropWhile Text.isBlank ++ [c] := by
      intro same
      have inside : c ∈ mark := by simp [same]
      have plain : ∀ d ∈ mark, Text.isBlank d = false := by simp [mark, Text.isBlank]
      rw [plain c inside] at blank
      cases blank
    simp only [List.isPrefixOf_iff_prefix, List.prefix_concat_iff, solid, false_or]
    split
    · next marked => rw [List.drop_append_of_le_length marked.length_le, Option.map_some]
    · rfl

/-- A blank behind the name and the arguments continues none of them. -/
theorem ofMarked?_concat (blank : Text.isBlank c = true) (rest : List Char) :
    ofMarked? (rest ++ [c]) = ofMarked? rest := by
  have ends := isNameChar_of_isBlank blank
  have name : (rest ++ [c]).takeWhile isNameChar = rest.takeWhile isNameChar := by
    rw [List.takeWhile_append]
    split
    · next whole => simp [ends, (List.takeWhile_prefix isNameChar).eq_of_length whole]
    · rfl
  have tail : (rest ++ [c]).dropWhile isNameChar = rest.dropWhile isNameChar ++ [c] := by
    rw [List.dropWhile_append]
    split
    · next nothing => simp [ends, List.isEmpty_iff.mp nothing]
    · rfl
  have next : (rest.dropWhile isNameChar ++ [c]).head?.all Text.isBlank =
      (rest.dropWhile isNameChar).head?.all Text.isBlank := by
    cases rest.dropWhile isNameChar with
    | nil => simp [blank]
    | cons d more => rfl
  have separates : isSeparator c = true := by simp [isSeparator, blank]
  simp only [ofMarked?, name, tail, next, Text.words_concat separates]

theorem ofLine?_concat (blank : Text.isBlank c = true) (line : List Char) :
    ofLine? (line ++ [c]) = ofLine? line := by
  rw [ofLine?, ofLine?, afterMark?_concat blank]
  cases afterMark? line with
  | none => rfl
  | some rest => exact ofMarked?_concat blank rest

/-- Blanks at the end of a line change nothing about its directive. -/
theorem ofLine?_append_blanks {tail : List Char} (blank : ∀ c ∈ tail, Text.isBlank c = true)
    (line : List Char) : ofLine? (line ++ tail) = ofLine? line := by
  induction tail generalizing line with
  | nil => rw [List.append_nil]
  | cons c tail ih =>
      rw [List.append_cons, ih fun d member => blank d (List.mem_cons_of_mem _ member),
        ofLine?_concat (blank c List.mem_cons_self)]

/-! ### The lines of a text -/

/-- An empty last row holds no directive. -/
theorem filterMap_ofLine?_closed (rs : List (List Char)) :
    (Text.closed rs).filterMap ofLine? = rs.filterMap ofLine? := by
  induction rs with
  | nil => rfl
  | cons r rs ih =>
      cases rs with
      | nil => cases r <;> rfl
      | cons s rs => rw [Text.closed_cons_cons, List.filterMap_cons, List.filterMap_cons, ih]

/-- Rows and lines hold the same directives. -/
theorem filterMap_ofLine?_lines (text : List Char) :
    (Text.lines text).filterMap ofLine? = (Text.rows text).filterMap ofLine? := by
  have same : ∀ {rs ls : List (List Char)}, List.Forall₂ Text.Ends rs ls →
      ls.filterMap ofLine? = rs.filterMap ofLine? := by
    intro rs ls ends
    induction ends with
    | nil => rfl
    | cons first _ ih =>
        rw [List.filterMap_cons, List.filterMap_cons, ih]
        rcases first with rfl | rfl
        · rfl
        · rw [ofLine?_concat (by decide)]
  rw [same (Text.forall₂_lines text), filterMap_ofLine?_closed]

end Graft.Directive
