import Graft.Discovery
import Graft.Proofs.Discovery.Listings
import Mathlib.Data.List.Induction

/-!
# What a survey looks for

`Seeks` says which files are units of a survey, without going through the directories: a file that
names lead to from the root, with one of the frontend's extensions and no generated name, that is
not excluded and has no skipped path on the way from the root to it. `Refuses` says which
directories keep a survey from looking: those that cannot be listed and that no skipped path hides.

A survey finds the files that it seeks and no other, in strictly ascending order of their paths,
`explore_eq_ok_iff`, unless there is a directory that refuses it. Then it ends with the first of
these, `explore_eq_error_iff`.
-/

namespace Graft

open Listing (Comes Kept Reaches)

namespace EntryPath

/-- It does not matter which of two joins is made first. -/
theorem attach_attach (a b c : List UInt8) : attach (attach a b) c = attach a (attach b c) := by
  by_cases given : b = []
  · subst given
    by_cases ends : a = [] ∨ a.getLast? = some '/'.toUInt8 <;> simp [attach, ends]
  · have last : ∀ front : List UInt8, (front ++ b).getLast? = b.getLast? := by
      intro front
      rw [List.getLast?_append, List.getLast?_eq_some_getLast given, Option.some_or]
    have last' : ∀ x, (a ++ x :: b).getLast? = b.getLast? := by
      intro x
      rw [List.append_cons, last]
    by_cases ends : a = [] ∨ a.getLast? = some '/'.toUInt8 <;>
      by_cases ends' : b.getLast? = some '/'.toUInt8 <;>
        simp [attach, ends, ends', given, last, last']

variable {ν : Type} [FileName ν]

/-- A path below another one is written as the two of them joined. -/
theorem bytes_eq_attach (base : Path) (names : List ν) (given : names ≠ []) :
    (⟨base, names⟩ : EntryPath ν).bytes =
      attach (Text.bytes base.text) (⟨base, names⟩ : EntryPath ν).relative.bytes := by
  induction names using List.reverseRecOn with
  | nil => exact absurd rfl given
  | append_singleton front last ih =>
      have written : ∀ base : Path, (⟨base, front ++ [last]⟩ : EntryPath ν).bytes =
          attach (⟨base, front⟩ : EntryPath ν).bytes (FileName.bytes last) := by
        intro base
        simp [bytes]
      rw [relative, written, written]
      by_cases none : front = []
      · simp [none, bytes, attach]
      · rw [ih none, relative, attach_attach]

end EntryPath

namespace Survey

variable {ν : Type} [FileName ν] {s : Survey} {l : Listing ν} {p : EntryPath ν} {f : WalkFault ν}
variable {row : List (WalkStep ν)} {units : List (EntryPath ν)} {names : List ν}

/-! ### Files that are looked for -/

/-- Neither the end of names nor anything on the way from the root, the root included, is
skipped. -/
def Spares (s : Survey) (names : List ν) : Prop :=
  ∀ up, up <+: names → ∀ q ∈ s.skipped,
    (⟨s.root, up⟩ : EntryPath ν).key ≠ q.components.map Path.Component.key

/-- A file at or below the root of a survey that is one of its units. -/
structure Seeks (s : Survey) (l : Listing ν) (p : EntryPath ν) : Prop where
  base : p.base = s.root
  file : l.Reaches p.names .file
  handled : ∃ extension ∈ s.frontend.extensions, p.extension? = some extension
  ungenerated : ∀ suffix stem, s.generatedSuffix = some suffix → p.stem? = some stem →
    ¬ suffix.toList <:+ stem.toList
  included : s.excluded p.relative.bytes = false
  spared : s.Spares p.names

/-- A directory at or below the root of a survey that cannot be listed, and why not. -/
structure Refuses (s : Survey) (l : Listing ν) (f : WalkFault ν) : Prop where
  base : f.path.base = s.root
  closed : l.Reaches f.path.names (.closed f.fault)
  spared : s.Spares f.path.names

theorem accepts_iff : s.accepts p = true ↔
    (∃ extension ∈ s.frontend.extensions, p.extension? = some extension) ∧
    (∀ suffix stem, s.generatedSuffix = some suffix → p.stem? = some stem →
      ¬ suffix.toList <:+ stem.toList) ∧
    s.excluded p.relative.bytes = false := by
  have handled : s.frontend.knows p.extension? = true ↔
      ∃ extension ∈ s.frontend.extensions, p.extension? = some extension := by
    rw [Frontend.knows, Option.any_eq_true]
    constructor
    · rintro ⟨extension, last, known⟩
      exact ⟨extension, List.contains_iff_mem.mp known, last⟩
    · rintro ⟨extension, known, last⟩
      exact ⟨extension, last, List.contains_iff_mem.mpr known⟩
  have ungenerated : s.isGenerated p = false ↔ ∀ suffix stem, s.generatedSuffix = some suffix →
      p.stem? = some stem → ¬ suffix.toList <:+ stem.toList := by
    rw [isGenerated]
    cases s.generatedSuffix with
    | none => simp
    | some suffix =>
        cases p.stem? with
        | none => simp
        | some stem => simp [List.isSuffixOf_iff_suffix, Bool.eq_false_iff]
  rw [accepts, Bool.and_eq_true, Bool.and_eq_true, Bool.not_eq_true', Bool.not_eq_true', handled,
    ungenerated, and_assoc]

/-- The walk of a survey keeps what is not skipped. -/
theorem kept_iff : Kept (fun p => !s.isSkipped p) ⟨s.root, []⟩ names ↔ s.Spares names := by
  have other : ∀ (up : List ν) (q : Path), (⟨s.root, up⟩ : EntryPath ν).same q = false ↔
      (⟨s.root, up⟩ : EntryPath ν).key ≠ q.components.map Path.Component.key :=
    fun _ _ => decide_eq_false_iff_not
  simp [Kept, Spares, isSkipped, EntryPath.below, other]

/-- The walk of a survey. -/
abbrev steps (s : Survey) (l : Listing ν) : List (WalkStep ν) :=
  l.walk (fun p => !s.isSkipped p) ⟨s.root, []⟩

theorem seeks_iff : s.Seeks l p ↔ .ok ⟨p, true⟩ ∈ s.steps l ∧ s.accepts p = true := by
  rw [accepts_iff, Listing.mem_walk_iff]
  constructor
  · intro seeks
    refine ⟨⟨p.names, .file, seeks.file, kept_iff.mpr seeks.spared, ?_⟩, seeks.handled,
      seeks.ungenerated, seeks.included⟩
    simp [Listing.steps, EntryPath.below, ← seeks.base]
  · rintro ⟨⟨names, e, reached, kept, yielded⟩, handled, ungenerated, included⟩
    cases e <;> simp only [Listing.steps, List.mem_cons, List.not_mem_nil, or_false, reduceCtorEq,
      Except.ok.injEq, WalkEntry.mk.injEq, and_false, Bool.true_eq_false] at yielded
    obtain rfl := yielded.1
    exact ⟨rfl, by simpa [EntryPath.below] using reached, handled, ungenerated, included,
      by simpa [EntryPath.below] using kept_iff.mp kept⟩

theorem refuses_iff : s.Refuses l f ↔ .error f ∈ s.steps l := by
  rw [Listing.mem_walk_iff]
  constructor
  · intro refuses
    refine ⟨f.path.names, _, refuses.closed, kept_iff.mpr refuses.spared, ?_⟩
    obtain ⟨⟨base, names⟩, fault⟩ := f
    have base : base = s.root := refuses.base
    simp [Listing.steps, EntryPath.below, base]
  · rintro ⟨names, e, reached, kept, yielded⟩
    cases e <;> simp only [Listing.steps, List.mem_cons, List.not_mem_nil, or_false, reduceCtorEq,
      false_or, Except.error.injEq] at yielded
    subst yielded
    exact ⟨rfl, by simpa [EntryPath.below] using reached,
      by simpa [EntryPath.below] using kept_iff.mp kept⟩

/-! ### What is selected of a walk -/

/-- The unit that a step of a walk comes to, if it does. -/
def unit? (s : Survey) : WalkStep ν → Option (EntryPath ν)
  | .ok e => if e.isFile && s.accepts e.path then some e.path else none
  | .error _ => none

theorem select_eq_ok_iff : s.select row = .ok units ↔
    (∀ f, .error f ∉ row) ∧ units = row.filterMap s.unit? := by
  induction row generalizing units with
  | nil => simp [select, eq_comm]
  | cons step row ih =>
      cases step with
      | error f =>
          simp only [select, reduceCtorEq, List.mem_cons, false_iff, not_and]
          exact fun none => absurd (Or.inl rfl) (none f)
      | ok e =>
          rw [select]
          cases selected : s.select row with
          | error f =>
              have some : ¬ ∀ f, .error f ∉ row := by
                intro none
                have := ih.mpr ⟨none, rfl⟩
                rw [selected] at this
                cases this
              simp [some]
          | ok rest =>
              obtain ⟨none, rfl⟩ := ih.mp selected
              simp only [Except.ok.injEq, List.mem_cons, reduceCtorEq, false_or, none,
                not_false_eq_true, implies_true, true_and, List.filterMap_cons, unit?]
              cases e.isFile && s.accepts e.path <;> simp [eq_comm]

theorem select_eq_error_iff : s.select row = .error f ↔
    ∃ before after, row = before ++ .error f :: after ∧ ∀ f', .error f' ∉ before := by
  induction row with
  | nil => simp [select]
  | cons step row ih =>
      simp only [List.cons_eq_append_iff]
      cases step with
      | error f' =>
          simp only [select, Except.error.injEq]
          constructor
          · rintro rfl
            exact ⟨[], row, Or.inl ⟨rfl, rfl⟩, by simp⟩
          · rintro ⟨before, after, ⟨-, whole⟩ | ⟨rest, rfl, -⟩, none⟩
            · exact (Except.error.inj (List.cons.inj whole).1).symm
            · exact absurd List.mem_cons_self (none f')
      | ok e =>
          have same : s.select (.ok e :: row) = .error f ↔ s.select row = .error f := by
            rw [select]
            cases s.select row <;> simp
          rw [same, ih]
          constructor
          · rintro ⟨before, after, rfl, none⟩
            exact ⟨_, after, Or.inr ⟨before, rfl, rfl⟩, by simpa using none⟩
          · rintro ⟨before, after, ⟨-, whole⟩ | ⟨rest, rfl, rfl⟩, none⟩
            · cases (List.cons.inj whole).1
            · exact ⟨rest, after, rfl, fun f' member => none f' (List.mem_cons_of_mem _ member)⟩

/-! ### What is found -/

theorem mem_units_iff : p ∈ (s.steps l).filterMap s.unit? ↔ s.Seeks l p := by
  rw [seeks_iff, List.mem_filterMap]
  constructor
  · rintro ⟨step, member, unit⟩
    cases step with
    | error f => cases unit
    | ok e =>
        simp only [unit?, Bool.and_eq_true, Option.ite_none_right_eq_some,
          Option.some.injEq] at unit
        obtain ⟨⟨file, accepted⟩, rfl⟩ := unit
        obtain ⟨path, isFile⟩ := e
        obtain rfl : isFile = true := file
        exact ⟨member, accepted⟩
  · rintro ⟨member, accepted⟩
    exact ⟨_, member, by simp [unit?, accepted]⟩

/-- A walk comes to units in strictly ascending order. -/
theorem ascending_units (s : Survey) (distinct : l.Distinct) :
    ((s.steps l).filterMap s.unit?).Pairwise fun p q => compare p q = .lt := by
  refine List.pairwise_filterMap.mpr ((Listing.ascending_walk distinct _ _).imp ?_)
  intro a b comes p unit q unit'
  cases a with
  | error f => cases unit
  | ok e =>
      cases b with
      | error f => cases unit'
      | ok e' =>
          simp only [unit?, Option.ite_none_right_eq_some, Option.some.injEq] at unit unit'
          obtain ⟨-, rfl⟩ := unit
          obtain ⟨-, rfl⟩ := unit'
          rcases comes with less | ⟨-, f, fault⟩
          · exact less
          · cases fault

theorem nodup_of_ascending (ascending : units.Pairwise fun p q => compare p q = .lt) :
    units.Nodup := by
  refine ascending.imp ?_
  rintro p _ less rfl
  rw [Std.compare_self] at less
  cases less

/-- A walk has its units in order already. -/
theorem explore_eq_select (distinct : l.Distinct) : s.explore (.ok l) = s.select (s.steps l) := by
  simp only [explore]
  cases selected : s.select (s.steps l) with
  | error f => rfl
  | ok units =>
      obtain ⟨-, rfl⟩ := select_eq_ok_iff.mp selected
      refine congrArg Except.ok (List.mergeSort_of_pairwise ?_)
      refine (s.ascending_units distinct).imp fun less => ?_
      rw [EntryPath.precedes, less]
      rfl

/-- What a survey finds, if no directory refuses it. -/
theorem explore_eq_ok_iff (distinct : l.Distinct) : s.explore (.ok l) = .ok units ↔
    (∀ f, ¬ s.Refuses l f) ∧ (∀ p, p ∈ units ↔ s.Seeks l p) ∧
      units.Pairwise fun p q => compare p q = .lt := by
  have ascending := s.ascending_units distinct
  simp only [explore_eq_select distinct, select_eq_ok_iff, refuses_iff]
  refine and_congr_right fun _ => ⟨?_, ?_⟩
  · rintro rfl
    exact ⟨fun p => mem_units_iff, ascending⟩
  · rintro ⟨members, ascending'⟩
    have same : units.Perm ((s.steps l).filterMap s.unit?) :=
      (List.perm_ext_iff_of_nodup (nodup_of_ascending ascending')
        (nodup_of_ascending ascending)).mpr fun p => by rw [members, mem_units_iff]
    refine same.eq_of_pairwise ?_ ascending' ascending
    intro p q _ _ less greater
    rw [Std.OrientedOrd.eq_swap, greater] at less
    cases less

/-- A survey that a directory ends is ended by the first that refuses it. -/
theorem refuses_first (distinct : l.Distinct) (explored : s.explore (.ok l) = .error f) :
    s.Refuses l f ∧ ∀ f', s.Refuses l f' → f.path.precedes f'.path = true := by
  rw [explore_eq_select distinct] at explored
  obtain ⟨before, after, whole, none⟩ := select_eq_error_iff.mp explored
  have ascending : (s.steps l).Pairwise Comes := Listing.ascending_walk distinct _ _
  rw [whole] at ascending
  have later := (List.pairwise_cons.mp (List.pairwise_append.mp ascending).2.1).1
  refine ⟨refuses_iff.mpr (by simp [whole]), fun f' refuses => ?_⟩
  rw [refuses_iff, whole] at refuses
  rcases List.mem_append.mp refuses with early | late
  · exact absurd early (none f')
  · rcases List.mem_cons.mp late with same | behind
    · obtain rfl := Except.error.inj same
      exact EntryPath.precedes_self _
    · rcases later _ behind with less | ⟨path, -⟩
      · exact EntryPath.precedes_of_lt less
      · obtain path : f.path = f'.path := path
        rw [path]
        exact EntryPath.precedes_self _

/-- Two directories each of which is the first to refuse a survey are one. -/
theorem eq_of_refuses_first {f' : WalkFault ν} (distinct : l.Distinct) (refuses : s.Refuses l f)
    (refuses' : s.Refuses l f') (before : f.path.precedes f'.path = true)
    (before' : f'.path.precedes f.path = true) : f = f' := by
  obtain ⟨⟨base, names⟩, fault⟩ := f
  obtain ⟨⟨base', names'⟩, fault'⟩ := f'
  have here : base = s.root := refuses.base
  have here' : base' = s.root := refuses'.base
  subst here here'
  have same : names = names' := EntryPath.eq_of_precedes before before'
  subst same
  have closed := Listing.reaches_unique distinct refuses.closed refuses'.closed
  rw [Listing.closed.injEq] at closed
  rw [show fault = fault' from closed]

/-- The directory that ends a survey, if one does. -/
theorem explore_eq_error_iff (distinct : l.Distinct) : s.explore (.ok l) = .error f ↔
    s.Refuses l f ∧ ∀ f', s.Refuses l f' → f.path.precedes f'.path = true := by
  refine ⟨refuses_first distinct, ?_⟩
  rintro ⟨refuses, first⟩
  cases explored : s.explore (.ok l) with
  | ok units => exact absurd refuses (((explore_eq_ok_iff distinct).mp explored).1 f)
  | error f' =>
      obtain ⟨refuses', first'⟩ := refuses_first distinct explored
      rw [eq_of_refuses_first distinct refuses refuses' (first f' refuses') (first' f refuses)]

end Survey

end Graft
