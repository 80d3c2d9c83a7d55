import Graft.Tree.SourceUnit

/-!
# What a unit holds beyond another

`SourceUnit.unaccounted` goes through the later items and crosses out, for each of them, one equal
earlier item. Which of several equal items is crossed out does not matter, and neither does the
order in which the items stand: an item is left over as often as it occurs more often than before
(`count_unaccounted`). What is left over keeps its order, and references are never crossed out.

So `SourceUnit.additions` is the difference of the two units as multisets of items, and it is
missing exactly when that difference is empty, `additions_counts`.
-/

namespace Graft.SourceUnit

variable {later earlier : List Node} {n : Node}

theorem unaccounted_sublist (later earlier : List Node) :
    (unaccounted later earlier).Sublist later := by
  induction later generalizing earlier with
  | nil => exact List.Sublist.slnil
  | cons m later ih =>
      rw [unaccounted]
      split
      · exact (ih earlier).cons_cons m
      · split
        · exact (ih (earlier.erase m)).cons m
        · exact (ih earlier).cons_cons m

/-- Every reference is left over, and the references keep their order. -/
theorem references_unaccounted (later earlier : List Node) :
    ((unaccounted later earlier).filter fun n => n.kind = .reference) =
      later.filter fun n => n.kind = .reference := by
  induction later generalizing earlier with
  | nil => rfl
  | cons m later ih =>
      rw [unaccounted]
      split
      · next reference => simp [reference, ih]
      · next other =>
          split
          · simp [other, ih]
          · simp [other, ih]

/-- A later item and an equal earlier one cancel. -/
theorem count_cons_sub_count {m : Node} (given : m ∈ earlier) :
    (m :: later).count n - earlier.count n = later.count n - (earlier.erase m).count n := by
  rw [List.count_cons, List.count_erase]
  by_cases same : m = n
  · subst same
    have some := List.count_pos_iff.mpr given
    simp only [beq_self_eq_true, if_true]
    omega
  · simp [same]

/-- **Differences.** An item is left over as often as there are more of it later than earlier. -/
theorem count_unaccounted (other : n.kind ≠ .reference) (later earlier : List Node) :
    (unaccounted later earlier).count n = later.count n - earlier.count n := by
  induction later generalizing earlier with
  | nil => simp [unaccounted]
  | cons m later ih =>
      rw [unaccounted]
      split
      · next reference =>
          have different : m ≠ n := fun same => other (same ▸ reference)
          rw [List.count_cons_of_ne different, List.count_cons_of_ne different, ih]
      · split
        · next given => rw [ih, count_cons_sub_count given]
        · next missing =>
            -- an item that no earlier one is equal to is left over each time
            by_cases same : m = n
            · subst same
              rw [List.count_cons_self, List.count_cons_self, ih,
                List.count_eq_zero_of_not_mem missing, Nat.sub_zero, Nat.sub_zero]
            · rw [List.count_cons_of_ne same, List.count_cons_of_ne same, ih]

/-- Only references are left over exactly when no other item occurs more often than before. -/
theorem all_reference_unaccounted_iff (later earlier : List Node) :
    ((unaccounted later earlier).all fun n => n.kind = .reference) = true ↔
      ∀ n ∈ later, n.kind ≠ .reference → later.count n ≤ earlier.count n := by
  simp only [List.all_eq_true, decide_eq_true_eq]
  constructor
  · intro references n _ other
    have none : n ∉ unaccounted later earlier := fun left => other (references n left)
    rw [← Nat.sub_eq_zero_iff_le, ← count_unaccounted other]
    exact List.count_eq_zero_of_not_mem none
  · intro enough n left
    refine Decidable.byContradiction fun other => ?_
    have here := (unaccounted_sublist later earlier).subset left
    have some := List.count_pos_iff.mpr left
    rw [count_unaccounted other] at some
    have := enough n here other
    omega

/-- **Additions.** Nothing was added exactly when every item other than a reference occurs before
at least as often as after. Otherwise the additions are a unit without documentation, of the later
text, whose items are later items in their order: all references, and every other item as often as
there are more of it after than before. -/
theorem additions_counts (after before : SourceUnit) :
    (after.additions before = none ↔
      ∀ n ∈ after.items, n.kind ≠ .reference → after.items.count n ≤ before.items.count n) ∧
    ∀ added, after.additions before = some added →
      added = ofItems after.source none added.items ∧
      added.items.Sublist after.items ∧
      added.references = after.references ∧
      ∀ n, n.kind ≠ .reference →
        added.items.count n = after.items.count n - before.items.count n := by
  rw [← all_reference_unaccounted_iff, additions]
  constructor
  · split <;> simp_all
  · intro added
    split
    · rintro ⟨⟩
    · rintro ⟨⟩
      refine ⟨rfl, unaccounted_sublist _ _, references_unaccounted _ _, ?_⟩
      exact fun n other => count_unaccounted other _ _

end Graft.SourceUnit
