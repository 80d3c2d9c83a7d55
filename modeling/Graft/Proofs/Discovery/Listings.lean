import Graft.FileSystem.Listing
import Graft.Proofs.Path.Order
import Mathlib.Data.List.Nodup

/-!
# What a walk over a listing comes to

`Listing.Reaches` says what stands at some names below a listing, without walking over it. A walk
yields what is reached by names on the way of which it keeps everything, and nothing else,
`mem_walk_iff`. If no directory calls two entries by one name, the walk comes to these paths in
their order, `ascending_walk`, and some names reach one thing only, `reaches_unique`.
-/

namespace Graft

namespace EntryPath

variable {ν : Type} {p q : EntryPath ν} {a b names : List ν} {n m : ν}

/-- The path that names lead to, one after the other. -/
def below (p : EntryPath ν) (names : List ν) : EntryPath ν := { p with names := p.names ++ names }

@[simp] theorem below_nil (p : EntryPath ν) : p.below [] = p := by simp [below]

theorem enter_below (p : EntryPath ν) (n : ν) (names : List ν) :
    (p.enter n).below names = p.below (n :: names) := by
  simp [enter, below]

variable [FileName ν]

instance : Std.TransOrd (EntryPath ν) := inferInstanceAs (Std.TransCmp (compareOn key))

theorem key_below (p : EntryPath ν) (names : List ν) :
    (p.below names).key =
      p.key ++ names.map fun name => .ofName (FileName.bytes name) := by
  simp [key, below]

theorem ofName_inj : (Path.Component.Key.ofName (FileName.bytes n)) =
    .ofName (FileName.bytes m) ↔ n = m := by
  rw [Path.Component.Key.ofName, Path.Component.Key.ofName, Path.Component.Key.mk.injEq]
  exact ⟨fun same => FileName.eq_of_bytes same.2, fun same => by rw [same]; exact ⟨rfl, rfl⟩⟩

/-- Paths below one path are equal if they compare so. -/
theorem below_inj (same : compare (p.below a) (p.below b) = .eq) : a = b := by
  change compare (p.below a).key (p.below b).key = .eq at same
  rw [Std.compare_eq_iff_eq, key_below, key_below, List.append_cancel_left_eq] at same
  exact (List.map_inj_right fun _ _ => ofName_inj.mp).mp same

/-- Two paths from one start are one if each comes before the other. -/
theorem eq_of_precedes {base : Path} (first : (⟨base, a⟩ : EntryPath ν).precedes ⟨base, b⟩ = true)
    (second : (⟨base, b⟩ : EntryPath ν).precedes ⟨base, a⟩ = true) : a = b := by
  refine below_inj (p := ⟨base, []⟩) ?_
  rw [precedes, Std.OrientedOrd.eq_swap] at second
  rw [precedes] at first
  cases order : compare (⟨base, a⟩ : EntryPath ν) ⟨base, b⟩ <;> simp_all [below]

theorem precedes_self (p : EntryPath ν) : p.precedes p = true := by
  rw [precedes, Std.compare_self]
  rfl

theorem precedes_of_lt {p q : EntryPath ν} (less : compare p q = .lt) : p.precedes q = true := by
  rw [precedes, less]
  rfl

/-- A directory comes before what it holds. -/
theorem before_below (p : EntryPath ν) (n : ν) (names : List ν) :
    compare p (p.below (n :: names)) = .lt := by
  change compare p.key (p.below (n :: names)).key = .lt
  have behind := Path.Component.compare_append p.key [] ((n :: names).map fun name =>
    .ofName (FileName.bytes name))
  rw [List.append_nil] at behind
  rw [key_below, behind]
  rfl

/-- The first name tells in which order two paths come. -/
theorem before_of_lt (less : compare (FileName.bytes n) (FileName.bytes m) = .lt)
    (p : EntryPath ν) (a b : List ν) : compare (p.below (n :: a)) (p.below (m :: b)) = .lt := by
  change compare (p.below (n :: a)).key (p.below (m :: b)).key = .lt
  have first : compare (Path.Component.Key.ofName (FileName.bytes n))
      (.ofName (FileName.bytes m)) = .lt := by
    change (compare 3 3).then (compare (FileName.bytes n) (FileName.bytes m)) = .lt
    rw [less]
    rfl
  rw [key_below, key_below, Path.Component.compare_append, List.map_cons, List.map_cons,
    List.compare_cons_cons, first]
  rfl

end EntryPath

/-- The path that a step of a walk is at. -/
def WalkStep.path {ν : Type} : WalkStep ν → EntryPath ν
  | .ok e => e.path
  | .error f => f.path

namespace Listing

variable {ν : Type}

/-- What stands at names below a listing. -/
inductive Reaches : Listing ν → List ν → Listing ν → Prop
  | here (l : Listing ν) : Reaches l [] l
  | inside {entries : List (ν × Listing ν)} {name : ν} {names : List ν} {below l : Listing ν}
      (member : (name, below) ∈ entries) (lower : Reaches below names l) :
      Reaches (.dir entries) (name :: names) l

/-- No directory calls two of its entries by one name. -/
def Distinct (l : Listing ν) : Prop :=
  ∀ names entries, l.Reaches names (.dir entries) → (entries.map (·.1)).Nodup

/-- What a walk yields at a path. -/
def steps (p : EntryPath ν) : Listing ν → List (WalkStep ν)
  | .file => [.ok ⟨p, true⟩]
  | .closed fault => [.ok ⟨p, false⟩, .error ⟨p, fault⟩]
  | .special | .dir _ => [.ok ⟨p, false⟩]

variable {l r : Listing ν} {entries : List (ν × Listing ν)} {name : ν} {names : List ν}
variable {p : EntryPath ν} {step : WalkStep ν} {keep : EntryPath ν → Bool}

theorem Distinct.lower (distinct : (Listing.dir entries).Distinct) (member : (name, l) ∈ entries) :
    l.Distinct :=
  fun names entries' lower => distinct (name :: names) entries' (.inside member lower)

theorem reaches_nil_iff : l.Reaches [] r ↔ r = l := by
  constructor
  · intro reached
    cases reached
    rfl
  · rintro rfl
    exact .here r

theorem reaches_cons_iff : l.Reaches (name :: names) r ↔
    ∃ entries below, l = .dir entries ∧ (name, below) ∈ entries ∧ below.Reaches names r := by
  constructor
  · rintro (_ | ⟨member, lower⟩)
    exact ⟨_, _, rfl, member, lower⟩
  · rintro ⟨entries, below, rfl, member, lower⟩
    exact .inside member lower

theorem distinct_of_leaf (leaf : ∀ entries, l ≠ .dir entries) : l.Distinct := by
  rintro names entries (_ | ⟨member, lower⟩)
  · exact absurd rfl (leaf entries)
  · exact absurd rfl (leaf _)

theorem distinct_dir (nodup : (entries.map (·.1)).Nodup)
    (lower : ∀ e ∈ entries, e.2.Distinct) : (Listing.dir entries).Distinct := by
  rintro names entries' (_ | ⟨member, reached⟩)
  · exact nodup
  · exact lower _ member _ _ reached

theorem path_of_mem_steps (member : step ∈ l.steps p) : step.path = p := by
  cases l <;> simp only [steps, List.mem_cons, List.not_mem_nil, or_false] at member
  case closed fault => rcases member with rfl | rfl <;> rfl
  all_goals
    subst member
    rfl

/-- Different entries of a directory have different names. -/
theorem eq_of_mem (distinct : (Listing.dir entries).Distinct) (member : (name, l) ∈ entries)
    (member' : (name, r) ∈ entries) : l = r := by
  have nodup := distinct [] entries (.here _)
  exact (Prod.mk.inj (List.inj_on_of_nodup_map nodup member member' rfl)).2

/-- Names reach one thing only. -/
theorem reaches_unique (distinct : l.Distinct) {e e' : Listing ν} (reached : l.Reaches names e)
    (reached' : l.Reaches names e') : e = e' := by
  induction reached with
  | here l => exact (reaches_nil_iff.mp reached').symm
  | inside member lower ih =>
      obtain ⟨entries, below, ⟨⟩, member', lower'⟩ := reaches_cons_iff.mp reached'
      obtain rfl := eq_of_mem distinct member member'
      exact ih (distinct.lower member) lower'

/-- Proving something of all listings from the directories that hold those it is known of. -/
theorem induction_dir {motive : Listing ν → Prop}
    (leaf : ∀ l, (∀ entries, l ≠ .dir entries) → motive l)
    (dir : ∀ entries, (∀ name l, (name, l) ∈ entries → motive l) → motive (.dir entries)) :
    (l : Listing ν) → motive l
  | .dir entries => dir entries fun _ l _ => induction_dir leaf dir l
  | .file => leaf _ (by simp)
  | .special => leaf _ (by simp)
  | .closed fault => leaf _ (by simp)
termination_by l => sizeOf l
decreasing_by
  next member =>
    have := List.sizeOf_lt_of_mem member
    simp at this ⊢
    omega

/-- Everything on the way along names is kept. -/
def Kept (keep : EntryPath ν → Bool) (p : EntryPath ν) (names : List ν) : Prop :=
  ∀ up, up <+: names → keep (p.below up) = true

theorem kept_cons : Kept keep p (name :: names) ↔
    keep p = true ∧ Kept keep (p.enter name) names := by
  constructor
  · intro kept
    refine ⟨by simpa using kept [] List.nil_prefix, fun up initial => ?_⟩
    rw [EntryPath.enter_below]
    exact kept (name :: up) (List.cons_prefix_cons.mpr ⟨rfl, initial⟩)
  · rintro ⟨here, kept⟩ up initial
    cases up with
    | nil => simpa using here
    | cons first up =>
        obtain ⟨rfl, within⟩ := List.cons_prefix_cons.mp initial
        rw [← EntryPath.enter_below]
        exact kept up within

variable [FileName ν]

/-! ### What a walk yields -/

theorem walk_eq (keep : EntryPath ν → Bool) (p : EntryPath ν) (l : Listing ν) :
    l.walk keep p = if keep p then
      l.steps p ++ (match l with
        | .dir entries => inOrder (walkIn keep p entries)
        | _ => [])
    else [] := by
  cases l <;> simp [walk, steps]

theorem mem_inOrder {parts : List (ν × List (WalkStep ν))} :
    step ∈ inOrder parts ↔ ∃ part ∈ parts, step ∈ part.2 := by
  simp [inOrder, List.mem_flatMap]

/-- Parts that are in order are put together as they are. -/
theorem inOrder_of_pairwise {parts : List (ν × List (WalkStep ν))}
    (sorted : parts.Pairwise fun a b => byName a b = true) :
    inOrder parts = parts.flatMap (·.2) := by
  rw [inOrder, List.mergeSort_of_pairwise sorted]

theorem walkIn_eq (keep : EntryPath ν → Bool) (p : EntryPath ν) (entries : List (ν × Listing ν)) :
    walkIn keep p entries = entries.map fun e => (e.1, e.2.walk keep (p.enter e.1)) := by
  induction entries with
  | nil => rfl
  | cons head entries ih =>
      obtain ⟨name, e⟩ := head
      rw [walkIn, ih, List.map_cons]

/-- What a walk yields below a directory is what it yields below one of the entries. -/
theorem mem_below_iff : step ∈ inOrder (walkIn keep p entries) ↔
    ∃ name l, (name, l) ∈ entries ∧ step ∈ l.walk keep (p.enter name) := by
  simp only [mem_inOrder, walkIn_eq, List.mem_map]
  constructor
  · rintro ⟨-, ⟨⟨name, l⟩, inside, rfl⟩, yielded⟩
    exact ⟨name, l, inside, yielded⟩
  · rintro ⟨name, l, inside, yielded⟩
    exact ⟨_, ⟨(name, l), inside, rfl⟩, yielded⟩

/-- What a walk yields below a listing that is no directory. -/
theorem walk_of_leaf (leaf : ∀ entries, l ≠ .dir entries) :
    l.walk keep p = if keep p then l.steps p else [] := by
  rw [walk_eq]
  cases l with
  | dir entries => exact absurd rfl (leaf entries)
  | _ => simp

theorem walk_dir (keep : EntryPath ν → Bool) (p : EntryPath ν) (entries : List (ν × Listing ν)) :
    (dir entries).walk keep p =
      if keep p then .ok ⟨p, false⟩ :: inOrder (walkIn keep p entries) else [] := by
  rw [walk]

/-- A walk yields what names lead to on the way of which it keeps everything. -/
theorem mem_walk_iff : step ∈ l.walk keep p ↔
    ∃ names e, l.Reaches names e ∧ Kept keep p names ∧ step ∈ e.steps (p.below names) := by
  constructor
  · intro member
    induction l using induction_dir generalizing p with
    | leaf l leaf =>
        rw [walk_of_leaf leaf] at member
        split at member
        · next here =>
            refine ⟨[], l, .here l, ?_, by simpa using member⟩
            intro up initial
            rw [List.prefix_nil.mp initial, EntryPath.below_nil, here]
        · cases member
    | dir entries ih =>
        rw [walk_dir] at member
        split at member
        · next here =>
            rcases List.mem_cons.mp member with rfl | lower
            · refine ⟨[], _, .here _, ?_, by simp [steps]⟩
              intro up initial
              rw [List.prefix_nil.mp initial, EntryPath.below_nil, here]
            · obtain ⟨name, l, inside, lower⟩ := mem_below_iff.mp lower
              obtain ⟨names, e, reached, kept, yielded⟩ := ih name l inside lower
              rw [EntryPath.enter_below] at yielded
              exact ⟨name :: names, e, .inside inside reached, kept_cons.mpr ⟨here, kept⟩, yielded⟩
        · cases member
  · rintro ⟨names, e, reached, kept, yielded⟩
    induction reached generalizing p with
    | here l =>
        rw [EntryPath.below_nil] at yielded
        have here : keep p = true := by simpa using kept [] List.nil_prefix
        rw [walk_eq, if_pos here]
        exact List.mem_append_left _ yielded
    | inside member lower ih =>
        obtain ⟨here, kept⟩ := kept_cons.mp kept
        rw [← EntryPath.enter_below] at yielded
        rw [walk_dir, if_pos here]
        exact List.mem_cons_of_mem _ (mem_below_iff.mpr ⟨_, _, member, ih kept yielded⟩)

/-! ### The order of a walk -/

theorem exists_below_of_mem_walk (member : step ∈ l.walk keep p) :
    ∃ names, step.path = p.below names := by
  obtain ⟨names, e, -, -, yielded⟩ := mem_walk_iff.mp member
  exact ⟨names, path_of_mem_steps yielded⟩

/-- The parts of a walk come in the order of their names, which are different. -/
theorem ascending_parts {parts : List (ν × List (WalkStep ν))} (nodup : (parts.map (·.1)).Nodup) :
    (parts.mergeSort byName).Pairwise fun a b =>
      compare (FileName.bytes a.1) (FileName.bytes b.1) = .lt := by
  have sorted : (parts.mergeSort byName).Pairwise fun a b => byName a b = true := by
    apply List.pairwise_mergeSort
    · exact fun _ _ _ => Std.TransOrd.isLE_trans
    · exact fun a b => isLE_total (FileName.bytes a.1) (FileName.bytes b.1)
  have apart : (parts.mergeSort byName).Pairwise fun a b => a.1 ≠ b.1 := by
    rw [← List.pairwise_map]
    exact ((List.mergeSort_perm parts byName).map _).nodup_iff.mpr nodup
  refine (sorted.and apart).imp fun {a b} ⟨ordered, other⟩ => ?_
  rw [byName, Ordering.isLE_iff_eq_lt_or_eq_eq, Std.compare_eq_iff_eq] at ordered
  exact ordered.resolve_right fun same => other (FileName.eq_of_bytes same)

/-- The order of the steps of a walk: by their paths, and at one path a fault comes last. -/
def Comes (a b : WalkStep ν) : Prop :=
  compare a.path b.path = .lt ∨ a.path = b.path ∧ ∃ f, b = .error f

theorem comes_of_steps (l : Listing ν) (p : EntryPath ν) : (l.steps p).Pairwise Comes := by
  cases l with
  | closed fault =>
      refine List.pairwise_pair.mpr (Or.inr ⟨rfl, ⟨p, fault⟩, rfl⟩)
  | _ => exact List.pairwise_singleton _ _

/-- A walk comes to paths in their order. -/
theorem ascending_walk (distinct : l.Distinct) (keep : EntryPath ν → Bool) (p : EntryPath ν) :
    (l.walk keep p).Pairwise Comes := by
  induction l using induction_dir generalizing p with
  | leaf l leaf =>
      rw [walk_of_leaf leaf]
      split
      · exact comes_of_steps l p
      · exact .nil
  | dir entries ih =>
      rw [walk_dir]
      split
      · refine List.pairwise_cons.mpr ⟨?_, ?_⟩
        · intro step member
          obtain ⟨name, l, -, lower⟩ := mem_below_iff.mp member
          obtain ⟨names, path⟩ := exists_below_of_mem_walk lower
          left
          rw [path, EntryPath.enter_below]
          exact p.before_below name names
        · have nodup : ((walkIn keep p entries).map (·.1)).Nodup := by
            simpa [walkIn_eq, Function.comp_def] using distinct [] entries (.here _)
          refine List.pairwise_flatMap.mpr ⟨?_, ?_⟩
          · intro part member
            rw [List.mem_mergeSort, walkIn_eq] at member
            obtain ⟨⟨name, l⟩, inside, rfl⟩ := List.mem_map.mp member
            exact ih name l inside (distinct.lower inside) (p.enter name)
          · refine (ascending_parts nodup).imp_of_mem ?_
            intro part part' member member' less step first step' second
            rw [List.mem_mergeSort, walkIn_eq] at member member'
            obtain ⟨⟨name, l⟩, -, rfl⟩ := List.mem_map.mp member
            obtain ⟨⟨name', l'⟩, -, rfl⟩ := List.mem_map.mp member'
            obtain ⟨names, path⟩ := exists_below_of_mem_walk first
            obtain ⟨names', path'⟩ := exists_below_of_mem_walk second
            left
            rw [path, path', EntryPath.enter_below, EntryPath.enter_below]
            exact EntryPath.before_of_lt less p names names'
      · exact .nil

end Listing

end Graft
