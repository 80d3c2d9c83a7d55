import Graft.Path

/-!
# The order of components

Components are ordered by their keys: first the sort, then the bytes. Different components have
different keys, so the order tells them apart.
-/

namespace Graft

/-- Of two things one does not come after the other. -/
theorem isLE_total {α : Type} [Ord α] [Std.OrientedOrd α] (a b : α) :
    ((compare a b).isLE || (compare b a).isLE) = true := by
  rw [show compare b a = (compare a b).swap from Std.OrientedOrd.eq_swap]
  cases compare a b <;> rfl

namespace Path.Component

instance : Std.TransOrd Key :=
  inferInstanceAs (Std.TransCmp (compareLex (compareOn Key.rank) (compareOn Key.bytes)))

instance : Std.LawfulEqOrd Key where
  eq_of_compare {a b} same := by
    obtain ⟨rank, bytes⟩ := Ordering.then_eq_eq.mp same
    rw [compareOn, Std.compare_eq_iff_eq] at rank bytes
    cases a
    cases b
    simp_all

theorem key_inj {a b : Component} : a.key = b.key ↔ a = b := by
  refine ⟨fun same => ?_, congrArg key⟩
  obtain ⟨rank, text⟩ := Key.mk.inj same
  rw [Text.bytes_inj] at text
  cases a <;> cases b <;> simp_all [Component.rank, Component.text]

theorem map_key_inj {a b : List Component} : a.map key = b.map key ↔ a = b :=
  List.map_inj_right fun _ _ => key_inj.mp

instance : Std.TransOrd Component := inferInstanceAs (Std.TransCmp (compareOn key))

instance : Std.LawfulEqOrd Component where
  eq_of_compare {a b} same := by
    change compare a.key b.key = .eq at same
    exact key_inj.mp (Std.compare_eq_iff_eq.mp same)

/-- Rows of components compare as their keys do. -/
theorem compare_map_key (a b : List Component) :
    compare (a.map key) (b.map key) = compare a b := by
  induction a generalizing b with
  | nil => cases b <;> rfl
  | cons c a ih =>
      cases b with
      | nil => rfl
      | cons d b =>
          rw [List.map_cons, List.map_cons, List.compare_cons_cons, List.compare_cons_cons, ih]
          rfl

/-- What comes behind equal keys decides how rows of keys compare. -/
theorem compare_append (front a b : List Key) :
    compare (front ++ a) (front ++ b) = compare a b := by
  induction front with
  | nil => rfl
  | cons key front ih =>
      rw [List.cons_append, List.cons_append, List.compare_cons_cons, ih, Std.compare_self,
        Ordering.eq_then]

end Path.Component

end Graft
