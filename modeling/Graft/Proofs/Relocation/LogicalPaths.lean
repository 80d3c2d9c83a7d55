import Graft.Proofs.Path.Parent
import Graft.Relocation

/-!
# Logical paths

A logical path is a row of segments between separators. The path of a package has the segments of
the module path and then the names of its directory, so that module paths with equally many
segments give different packages different paths, whatever the directories are. Exchanging the last
segment keeps the number of segments.
-/

namespace Graft.Relocation

open Graft.Path (IsStep)

variable {logical module module' name : String} {ns ns' : List String}

/-- The segments of a logical path. -/
def segments (logical : String) : List String :=
  (Text.pieces (· == '/') logical.toList).map String.ofList

/-- A logical path with another last segment. -/
def withLast (logical name : String) : String :=
  "/".intercalate ((segments logical).dropLast ++ [name])

/-- The logical path of the directory that names lead to from the root of a module. -/
def under (module : String) (ns : List String) : String :=
  if ns = [] then module else module ++ "/" ++ "/".intercalate ns

theorem segments_ne_nil (logical : String) : segments logical ≠ [] := by
  simp [segments, Text.pieces_ne_nil]

theorem intercalate_segments (logical : String) : "/".intercalate (segments logical) = logical := by
  apply String.toList_inj.mp
  rw [String.toList_intercalate, segments, List.map_map, Text.pieces_eq_splitOnP,
    ← List.splitOn_eq_splitOnP]
  simp [Function.comp_def, List.intercalate_splitOn]

theorem segments_inj (same : segments logical = segments name) : logical = name := by
  rw [← intercalate_segments logical, same, intercalate_segments]

theorem segments_intercalate (whole : ∀ n ∈ ns, '/' ∉ n.toList) (given : ns ≠ []) :
    segments ("/".intercalate ns) = ns :=
  Path.pieces_intercalate whole given

theorem segments_of_whole (whole : '/' ∉ logical.toList) : segments logical = [logical] := by
  have row : segments ("/".intercalate [logical]) = [logical] :=
    segments_intercalate (by simpa using whole) (by simp)
  rwa [String.intercalate_singleton] at row

theorem segments_append (before after : String) :
    segments (before ++ "/" ++ after) = segments before ++ segments after := by
  have chars : (before ++ "/" ++ after).toList = before.toList ++ '/' :: after.toList := by simp
  rw [segments, chars, Path.cut_slash, List.map_append]
  rfl

theorem whole_of_mem_segments (member : name ∈ segments logical) : '/' ∉ name.toList := by
  obtain ⟨piece, inside, rfl⟩ := List.mem_map.mp member
  intro slash
  rw [String.toList_ofList] at slash
  simpa using Text.separatorFree_of_mem_pieces inside '/' slash

/-! ### The last segment -/

theorem segments_withLast (logical : String) (whole : '/' ∉ name.toList) :
    segments (withLast logical name) = (segments logical).dropLast ++ [name] := by
  apply segments_intercalate _ (by simp)
  intro n member
  rcases List.mem_append.mp member with inside | last
  · exact whole_of_mem_segments ((List.dropLast_sublist _).subset inside)
  · rwa [List.mem_singleton.mp last]

theorem length_segments_withLast (logical : String) (whole : '/' ∉ name.toList) :
    (segments (withLast logical name)).length = (segments logical).length := by
  have given := List.length_pos_iff.mpr (segments_ne_nil logical)
  rw [segments_withLast logical whole, List.length_append, List.length_dropLast]
  simp only [List.length_singleton]
  omega

theorem withLast_of_whole (whole : '/' ∉ logical.toList) : withLast logical name = name := by
  simp [withLast, segments_of_whole whole]

theorem withLast_append (before : String) {after : String} (whole : '/' ∉ after.toList) :
    withLast (before ++ "/" ++ after) name = before ++ "/" ++ name := by
  rw [withLast, segments_append, segments_of_whole whole, List.dropLast_concat,
    String.intercalate_append_of_ne_nil (segments_ne_nil before) (by simp), intercalate_segments,
    String.intercalate_singleton]

/-- A text without a separator, or what stands before and behind its last one. -/
theorem last_separator (logical : String) : '/' ∉ logical.toList ∨
    ∃ before after, logical = before ++ "/" ++ after ∧ '/' ∉ after.toList := by
  by_cases slash : '/' ∈ logical.toList
  · obtain ⟨after, before, split, whole⟩ :=
      List.eq_append_cons_of_mem (List.mem_reverse.mpr slash)
    refine Or.inr ⟨String.ofList before.reverse, String.ofList after.reverse, ?_, by simpa⟩
    apply String.toList_inj.mp
    have back := congrArg List.reverse split
    simpa using back
  · exact Or.inl slash

theorem dropWhile_append_of_whole {text : List Char} (whole : '/' ∉ text) (rest : List Char) :
    (text ++ rest).dropWhile (· ≠ '/') = rest.dropWhile (· ≠ '/') := by
  apply List.dropWhile_append_of_pos
  intro c member
  rw [decide_eq_true_eq]
  rintro rfl
  exact whole member

/-- The last segment is exchanged at the last separator. -/
theorem replaceLastSegment_eq (logical name : String) :
    replaceLastSegment logical.toList name = (withLast logical name).toList := by
  unfold replaceLastSegment
  rcases last_separator logical with whole | ⟨before, after, rfl, whole⟩
  · have nothing : (logical.toList.reverse ++ []).dropWhile (· ≠ '/') = [] :=
      dropWhile_append_of_whole (by simpa) []
    rw [List.append_nil] at nothing
    rw [withLast_of_whole whole, nothing]
    rfl
  · have chars : (before ++ "/" ++ after).toList.reverse =
        after.toList.reverse ++ '/' :: before.toList.reverse := by simp
    rw [withLast_append before whole, chars, dropWhile_append_of_whole (by simpa)]
    simp

/-! ### Packages -/

theorem segments_under (module : String) (steps : ∀ n ∈ ns, IsStep n) :
    segments (under module ns) = segments module ++ ns := by
  unfold under
  split
  · next none => rw [none, List.append_nil]
  · next given =>
      rw [segments_append, segments_intercalate (fun n member => (steps n member).whole) given]

/-- Where module paths have equally many segments, packages tell modules and directories apart. -/
theorem under_inj (steps : ∀ n ∈ ns, IsStep n) (steps' : ∀ n ∈ ns', IsStep n)
    (level : (segments module).length = (segments module').length)
    (same : under module ns = under module' ns') : module = module' ∧ ns = ns' := by
  have rows := congrArg segments same
  rw [segments_under module steps, segments_under module' steps'] at rows
  obtain ⟨modules, dirs⟩ := List.append_inj rows level
  exact ⟨segments_inj modules, dirs⟩

theorem withoutEnd?_append (base tail : List Char) :
    withoutEnd? tail (base ++ tail) = some base := by
  simp [withoutEnd?, List.suffix_append]

/-- A package goes to the same directory of the module with the other last segment. -/
theorem ofPackage_under (module name : String) (steps : ∀ n ∈ ns, IsStep n) :
    ofPackage (under module ns) ("/".intercalate ns) name =
      .moved (under (withLast module name) ns) := by
  unfold ofPackage under
  by_cases none : ns = []
  · simp only [none, String.intercalate_nil, if_true, replaceLastSegment_eq, String.ofList_toList]
  · have given : "/".intercalate ns ≠ "" := by
      intro empty
      have rows := segments_intercalate (fun n member => (steps n member).whole) none
      rw [empty] at rows
      exact (steps "" (by rw [← rows]; decide)).given rfl
    have chars : (module ++ "/" ++ "/".intercalate ns).toList =
        module.toList ++ '/' :: ("/".intercalate ns).toList := by
      rw [String.toList_append, String.toList_append, List.append_assoc]
      rfl
    rw [if_neg none, if_neg none, if_neg given, chars, withoutEnd?_append]
    simp only [replaceLastSegment_eq, moved.injEq]
    apply String.toList_inj.mp
    rw [String.toList_append, String.toList_append, List.append_assoc, String.toList_ofList]
    rfl

end Graft.Relocation
