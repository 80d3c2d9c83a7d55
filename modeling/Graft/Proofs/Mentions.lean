import Mathlib.Data.List.Induction
import Mathlib.Data.List.Nodup

/-!
# First mentions

A list without repetitions keeps the first mention of each of its elements. Read from its end, a
list has one case for each element: `eraseDups_concat` says that an element behind a list counts
only if the list does not have it. The other laws follow by induction from that end.
-/

namespace Graft

variable {α β : Type} [DecidableEq α] [DecidableEq β]

/-- The last element counts if it is the first of its kind. -/
theorem eraseDups_concat (l : List α) (a : α) :
    (l ++ [a]).eraseDups = if a ∈ l then l.eraseDups else l.eraseDups ++ [a] := by
  rw [List.eraseDups_append, List.removeAll]
  by_cases known : a ∈ l <;> simp [known, List.eraseDups_cons]

theorem nodup_eraseDups (l : List α) : l.eraseDups.Nodup := by
  induction l using List.reverseRecOn with
  | nil => exact List.nodup_nil
  | append_singleton l a ih =>
      rw [eraseDups_concat]
      split
      · exact ih
      · next fresh =>
          rw [← List.concat_eq_append]
          exact ih.concat (by rwa [List.mem_eraseDups])

theorem eraseDups_eq_self {l : List α} (nodup : l.Nodup) : l.eraseDups = l := by
  induction l using List.reverseRecOn with
  | nil => rfl
  | append_singleton l a ih =>
      obtain ⟨nodup, -, apart⟩ := List.nodup_append.mp nodup
      have fresh : a ∉ l := fun known => apart a known a (List.mem_singleton_self a) rfl
      rw [eraseDups_concat, if_neg fresh, ih nodup]

theorem eraseDups_append_eraseDups (l m : List α) :
    (l ++ m.eraseDups).eraseDups = (l ++ m).eraseDups := by
  induction m using List.reverseRecOn with
  | nil => rfl
  | append_singleton m a ih =>
      rw [eraseDups_concat, ← List.append_assoc, eraseDups_concat]
      by_cases known : a ∈ m
      · rw [if_pos known, if_pos (List.mem_append_right l known), ih]
      · rw [if_neg known, ← List.append_assoc, eraseDups_concat, ih]
        simp only [List.mem_append, List.mem_eraseDups]

/-- Leaving out repetitions commutes with an injective partial function. -/
theorem eraseDups_filterMap (f : α → Option β)
    (inj : ∀ a a' b, f a = some b → f a' = some b → a = a') (l : List α) :
    (l.filterMap f).eraseDups = l.eraseDups.filterMap f := by
  induction l using List.reverseRecOn with
  | nil => rfl
  | append_singleton l a ih =>
      rw [List.filterMap_append, eraseDups_concat]
      cases image : f a with
      | none =>
          rw [List.filterMap_cons_none image, List.filterMap_nil, List.append_nil, ih]
          split
          · rfl
          · rw [List.filterMap_append, List.filterMap_cons_none image, List.filterMap_nil,
              List.append_nil]
      | some b =>
          have known : b ∈ l.filterMap f ↔ a ∈ l := by
            rw [List.mem_filterMap]
            constructor
            · rintro ⟨a', member, image'⟩
              exact inj a a' b image image' ▸ member
            · exact fun member => ⟨a, member, image⟩
          rw [List.filterMap_cons_some image, List.filterMap_nil, eraseDups_concat, ih]
          simp only [known]
          split
          · rfl
          · rw [List.filterMap_append, List.filterMap_cons_some image, List.filterMap_nil]

end Graft
