import Graft.Proofs.Path.Parent
import Graft.Run

/-!
# File names

The file name of a path is its last name. An extension is what follows the last dot of a file name,
where the dot is not the first character. A generated name has the suffix for generated files at
the end of its stem: it never is the name that it was made from, and it is recognised as generated
whenever it has an extension.
-/

namespace Graft

namespace Path

variable {p q : Path} {name stem extension suffix : String}

theorem isName_of_fileName? (last : p.fileName? = some name) : IsName name := by
  obtain ⟨last, notUp⟩ := fileName?_eq_some_iff.mp last
  exact ⟨isStep_of_mem_names (List.mem_of_getLast? last), notUp⟩

theorem fileName?_join (isName : IsName name) : (p.join ⟨name⟩).fileName? = some name := by
  have step := isName.toIsStep
  rw [fileName?_eq_some_iff, names_join step.isAbsolute, step.names]
  exact ⟨List.getLast?_concat, isName.notUp⟩

theorem fileName?_withFileName (isName : IsName name) :
    (p.withFileName name).fileName? = some name := by
  unfold withFileName
  split <;> exact fileName?_join isName

/-- Another file name takes the place of the last name. -/
theorem names_withFileName (absolute : p.isAbsolute = true) {init : List String} {last : String}
    (split : p.pieces = init ++ [last]) (isName' : IsName last) (isName : IsName name) :
    (p.withFileName name).isAbsolute = true ∧
      (p.withFileName name).names = p.names.dropLast ++ [name] := by
  have whole : p.names = init.filter counts ++ [last] := by
    rw [names, split, List.filter_append]
    simp [isName'.counts]
  have named : p.fileName? = some last := by
    rw [fileName?_eq_some_iff, whole]
    exact ⟨List.getLast?_concat, isName'.notUp⟩
  obtain ⟨kept, dropped, front, blank, parent⟩ := parent?_eq_some split isName'.counts
  have fits : Fits true kept := by
    refine ⟨fun piece member => whole_of_mem_pieces (p := p) ?_, by simp⟩
    rw [split, front]
    simp [member]
  have nothing : dropped.filter counts = [] := by simpa using blank
  have step := isName.toIsStep
  rw [absolute] at parent
  simp only [withFileName, named, parent]
  rw [isAbsolute_join step.isAbsolute, names_join step.isAbsolute, isAbsolute_ofPieces fits,
    names_ofPieces fits, step.names, whole, List.dropLast_concat, front, List.filter_append,
    nothing, List.append_nil]
  exact ⟨rfl, rfl⟩

/-! ### Stems and extensions -/

/-- Letters with a dot are what stands before the last dot, the dot, and what follows it. -/
theorem cut_at_dot {α : Type} [DecidableEq α] {dot : α} {letters : List α}
    (given : (letters.dropWhile (· ≠ dot)).tail ≠ []) :
    letters.takeWhile (· ≠ dot) ++ dot :: (letters.dropWhile (· ≠ dot)).tail = letters := by
  cases rest : letters.dropWhile (· ≠ dot) with
  | nil => exact absurd (by rw [rest]; rfl) given
  | cons c tail =>
      have stops := List.head?_dropWhile_not (· ≠ dot) letters
      rw [rest] at stops
      have here : c = dot := by simpa using stops
      have whole := List.takeWhile_append_dropWhile (p := (· ≠ dot)) (l := letters)
      rwa [rest, here] at whole

/-- Where letters are cut, if they are cut. -/
theorem cutAt_eq_some_iff {α : Type} [DecidableEq α] {dot : α} {letters before after : List α} :
    cutAt dot letters = (before, some after) ↔
      before ≠ [] ∧ dot ∉ after ∧ letters = before ++ dot :: after := by
  unfold cutAt
  constructor
  · intro cut
    simp only at cut
    split at cut
    · cases cut
    · next given =>
        simp only [Prod.mk.injEq, Option.some.injEq] at cut
        obtain ⟨rfl, rfl⟩ := cut
        have whole := congrArg List.reverse (cut_at_dot given)
        refine ⟨by simpa using given, ?_, ?_⟩
        · intro inside
          rw [List.mem_reverse] at inside
          simpa using List.all_eq_true.mp (List.all_takeWhile (p := (· ≠ dot))) dot inside
        · rw [List.reverse_reverse] at whole
          refine whole.symm.trans ?_
          simp
  · rintro ⟨given, dotless, rfl⟩
    have reversed : (before ++ dot :: after).reverse = after.reverse ++ dot :: before.reverse := by
      simp
    have others : ∀ c ∈ after.reverse, decide (c ≠ dot) = true := by
      intro c member
      simp only [decide_eq_true_eq]
      rintro rfl
      exact dotless (List.mem_reverse.mp member)
    simp only [reversed, List.takeWhile_append_of_pos others, List.dropWhile_append_of_pos others]
    split
    · next nothing =>
        exact absurd (by simpa using nothing) given
    · simp

theorem cutAt_of_none {α : Type} [DecidableEq α] {dot : α} {letters before : List α}
    (cut : cutAt dot letters = (before, none)) : before = letters := by
  unfold cutAt at cut
  simp only at cut
  split at cut
  · exact (Prod.mk.inj cut).1.symm
  · cases cut

/-- Where a name is cut, if it is cut. -/
theorem cutName_eq_some_iff : cutName name = (stem, some extension) ↔
    stem ≠ "" ∧ '.' ∉ extension.toList ∧ name = stem ++ "." ++ extension := by
  have letters : cutName name = (stem, some extension) ↔
      cutAt '.' name.toList = (stem.toList, some extension.toList) := by
    unfold cutName
    cases cutAt '.' name.toList with
    | mk before after? =>
        cases after? with
        | none => simp
        | some after =>
            have spelled : ∀ (text : String) (chars : List Char),
                String.ofList chars = text ↔ chars = text.toList := by
              intro text chars
              rw [← String.toList_inj, String.toList_ofList]
            simp [spelled]
  have whole : name = stem ++ "." ++ extension ↔
      name.toList = stem.toList ++ '.' :: extension.toList := by
    rw [← String.toList_inj]
    simp
  rw [letters, cutAt_eq_some_iff, whole]
  simp

/-! ### Generated names -/

/-- A file name with a suffix at the end of its stem. -/
def generatedName (suffix name : String) : String :=
  match cutName name with
  | (stem, some extension) => stem ++ suffix ++ "." ++ extension
  | (stem, none) => stem ++ suffix

theorem cutName_of_none (cut : cutName name = (stem, none)) : stem = name := by
  unfold cutName at cut
  cases letters : cutAt '.' name.toList with
  | mk before after? =>
      rw [letters] at cut
      obtain ⟨rfl, last⟩ := Prod.mk.inj cut
      obtain rfl := Option.map_eq_none_iff.mp last
      rw [cutAt_of_none letters, String.ofList_toList]

/-- A generated name has the suffix in it, somewhere after its first character. -/
theorem generatedName_split (given : name ≠ "") (suffix : String) :
    ∃ before after, before ≠ "" ∧ name = before ++ after ∧
      generatedName suffix name = before ++ suffix ++ after := by
  unfold generatedName
  cases cut : cutName name with
  | mk stem extension? =>
      cases extension? with
      | none =>
          obtain rfl := cutName_of_none cut
          exact ⟨stem, "", given, by simp, by simp⟩
      | some extension =>
          obtain ⟨stemmed, -, rfl⟩ := cutName_eq_some_iff.mp cut
          refine ⟨stem, "." ++ extension, stemmed, String.append_assoc, ?_⟩
          simp only [String.append_assoc]

theorem length_generatedName (given : name ≠ "") (suffix : String) :
    (generatedName suffix name).length = name.length + suffix.length := by
  obtain ⟨before, after, -, rfl, generated⟩ := generatedName_split given suffix
  rw [generated]
  simp only [String.length_append]
  omega

theorem generatedName_ne (given : name ≠ "") (suffixed : suffix ≠ "") :
    generatedName suffix name ≠ name := by
  intro same
  have longer := length_generatedName given suffix
  rw [same] at longer
  have : suffix.length = 0 := by omega
  exact suffixed (String.length_eq_zero_iff.mp this)

/-- A suffix without a separator makes a name of a name. -/
theorem isName_generatedName (isName : IsName name) (suffixed : suffix ≠ "")
    (whole : '/' ∉ suffix.toList) : IsName (generatedName suffix name) := by
  obtain ⟨before, after, given, rfl, generated⟩ := generatedName_split isName.given suffix
  have positive : ∀ s : String, s ≠ "" → 0 < s.length := fun s nonempty =>
    Nat.pos_of_ne_zero fun zero => nonempty (String.length_eq_zero_iff.mp zero)
  have first := positive before given
  have second := positive suffix suffixed
  have total : (before ++ suffix ++ after).length =
      before.length + suffix.length + after.length := by
    simp only [String.length_append]
  rw [generated]
  refine ⟨⟨?_, ?_, ?_⟩, ?_⟩
  · intro empty
    rw [empty] at total
    simp only [String.length_empty] at total
    omega
  · intro here
    rw [here] at total
    have one : ".".length = 1 := by decide
    omega
  · have parts := isName.whole
    simp only [String.toList_append, List.mem_append, not_or] at parts ⊢
    exact ⟨⟨parts.1, whole⟩, parts.2⟩
  · -- only the name `.` could become `..`
    intro up
    rw [up] at total
    have two : "..".length = 2 := by decide
    have short : before.toList.length = 1 := by
      rw [String.length_toList]
      omega
    have nothing : after.length = 0 := by omega
    obtain ⟨c, one⟩ := List.length_eq_one_iff.mp short
    have chars := congrArg String.toList up
    simp only [String.toList_append, one, List.cons_append] at chars
    have dot : c = '.' := (List.cons.inj chars).1
    apply isName.notHere
    apply String.toList_inj.mp
    rw [String.length_eq_zero_iff.mp nothing, String.toList_append, one, dot]
    rfl

/-- The suffix ends the stem of a generated name with an extension. -/
theorem cutName_generatedName (cut : cutName name = (stem, some extension)) (suffix : String) :
    cutName (generatedName suffix name) = (stem ++ suffix, some extension) := by
  obtain ⟨given, dotless, -⟩ := cutName_eq_some_iff.mp cut
  have generated : generatedName suffix name = stem ++ suffix ++ "." ++ extension := by
    rw [generatedName, cut]
  refine cutName_eq_some_iff.mpr ⟨?_, dotless, generated⟩
  intro empty
  exact given (String.append_eq_empty_iff.mp empty).1

/-- Names with an extension are told apart by their generated names. -/
theorem generatedName_inj {name' stem' extension' : String}
    (cut : cutName name = (stem, some extension)) (cut' : cutName name' = (stem', some extension'))
    (same : generatedName suffix name = generatedName suffix name') : name = name' := by
  have parts := cutName_generatedName cut suffix
  rw [same, cutName_generatedName cut' suffix, Prod.mk.injEq, Option.some.injEq] at parts
  obtain ⟨-, -, whole⟩ := cutName_eq_some_iff.mp cut
  obtain ⟨-, -, whole'⟩ := cutName_eq_some_iff.mp cut'
  have stems : stem' = stem := by
    apply String.toList_inj.mp
    have chars := congrArg String.toList parts.1
    rwa [String.toList_append, String.toList_append, List.append_cancel_right_eq] at chars
  rw [whole, whole', stems, parts.2]

end Path

/-- The file that the additions of a file go to has the generated name of the file. -/
theorem Run.generatedPath_eq {r : Run} {p : Path} {name : String} (last : p.fileName? = some name) :
    r.generatedPath p = p.withFileName (Path.generatedName r.settings.genSuffix name) := by
  unfold generatedPath Path.stem? Path.extension? Path.generatedName
  rw [last]
  cases cut : Path.cutName name with
  | mk stem extension? => cases extension? <;> simp [cut]

theorem Run.fileName?_generatedPath {r : Run} {p : Path} {name : String}
    (last : p.fileName? = some name)
    (isName : Path.IsName (Path.generatedName r.settings.genSuffix name)) :
    (r.generatedPath p).fileName? = some (Path.generatedName r.settings.genSuffix name) := by
  rw [generatedPath_eq last, Path.fileName?_withFileName isName]

end Graft
