import Graft.Relocation

/-!
# Relocating a unit once and again

Relocations go through the references of a unit in order, move some of them, and stop at the first
that has no place in the output directory. `goal?` and `refusal?` say which references these are,
each for itself: a reference to a target is neither, whatever the table has for it. That is why a
moved reference is left alone the next time, although its new path may be the path of a package of
the table, and even of one that cannot be relocated.

`relocateItems_append` takes the references apart at any place that is reached, and
`relocates_again` says what relocating a unit does, and that doing it again does nothing more. This
holds also of a unit that was left half relocated. The directories and the paths of the packages
are arbitrary; nothing is said here about which relocations are valid.
-/

namespace Graft.Relocations

variable {r : Relocations} {n : Node} {logical goal : String} {fault : RelocationFault}

/-- Where an item is to lead instead: a reference with a valid relocation that is no target. -/
def goal? (r : Relocations) (n : Node) : Option String :=
  (logicalOf? n).bind fun logical =>
    if logical ∈ r.targets then none else (r.table.lookup logical).bind (·.target?)

/-- Why an item has no place: a reference with an invalid relocation that is no target. -/
def refusal? (r : Relocations) (n : Node) : Option (String × RelocationFault) :=
  (logicalOf? n).bind fun logical =>
    if logical ∈ r.targets then none
    else (r.table.lookup logical).bind fun relocation =>
      match relocation with
      | .moved _ => none
      | .invalid fault => some (logical, fault)

/-- An item that leads where it is to lead: its first child has the new path for a value, and
nothing else of it is changed. -/
def relocated (r : Relocations) (n : Node) : Node :=
  match r.goal? n, n.children with
  | some goal, c :: rest => { n with children := { c with value := goal } :: rest }
  | _, _ => n

/-- The number of items that are to be moved. -/
def moves (r : Relocations) (items : List Node) : Nat :=
  items.countP fun n => (r.goal? n).isSome

/-! ### One item -/

theorem relocated_of_goal_none (stays : r.goal? n = none) : r.relocated n = n := by
  rw [relocated, stays]

/-- A reference has a first child, which its path is the value of. -/
theorem logicalOf?_eq_some_iff : logicalOf? n = some logical ↔
    n.kind = .reference ∧ ∃ c rest, n.children = c :: rest ∧ c.value = logical := by
  unfold logicalOf?
  split
  · next kind =>
      cases n.children with
      | nil => simp [kind]
      | cons c rest => simp [kind]
  · next other => simp [other]

theorem relocated_of_goal (moves : r.goal? n = some goal) : r.relocated n = redirect n goal := by
  obtain ⟨logical, refers, -⟩ := Option.bind_eq_some_iff.mp moves
  obtain ⟨-, c, rest, children, -⟩ := logicalOf?_eq_some_iff.mp refers
  simp only [relocated, moves, children, redirect]
  rfl

/-- A moved item leads to its goal. -/
theorem logicalOf?_relocated (moves : r.goal? n = some goal) :
    logicalOf? (r.relocated n) = some goal := by
  obtain ⟨logical, refers, -⟩ := Option.bind_eq_some_iff.mp moves
  obtain ⟨kind, c, rest, children, -⟩ := logicalOf?_eq_some_iff.mp refers
  simp only [relocated, moves, children]
  exact logicalOf?_eq_some_iff.mpr ⟨kind, _, rest, rfl, rfl⟩

/-- A goal is a target. -/
theorem mem_targets_of_goal (moves : r.goal? n = some goal) : goal ∈ r.targets := by
  obtain ⟨logical, -, moves⟩ := Option.bind_eq_some_iff.mp moves
  split at moves
  · cases moves
  · obtain ⟨relocation, found, leads⟩ := Option.bind_eq_some_iff.mp moves
    obtain ⟨before, after, table, -⟩ := List.lookup_eq_some_iff.mp found
    exact List.mem_filterMap.mpr ⟨(logical, relocation), by simp [table], leads⟩

/-- An item that was relocated stays where it is. -/
theorem goal?_relocated (r : Relocations) (n : Node) : r.goal? (r.relocated n) = none := by
  cases moves : r.goal? n with
  | none => rw [relocated_of_goal_none moves, moves]
  | some goal =>
      rw [goal?, logicalOf?_relocated moves, Option.bind_some, if_pos (mem_targets_of_goal moves)]

theorem refusal?_relocated (accepted : r.refusal? n = none) :
    r.refusal? (r.relocated n) = none := by
  cases moves : r.goal? n with
  | none => rw [relocated_of_goal_none moves, accepted]
  | some goal =>
      rw [refusal?, logicalOf?_relocated moves, Option.bind_some,
        if_pos (mem_targets_of_goal moves)]

/-! ### Items in order -/

theorem relocateItems_of_refusal (refused : r.refusal? n = some (logical, fault))
    (rest : List Node) : r.relocateItems (n :: rest) = ⟨n :: rest, 0, some (logical, fault)⟩ := by
  obtain ⟨path, refers, refused⟩ := Option.bind_eq_some_iff.mp refused
  split at refused
  · cases refused
  · next free =>
      obtain ⟨relocation, found, refused⟩ := Option.bind_eq_some_iff.mp refused
      cases relocation with
      | moved goal => cases refused
      | invalid fault =>
          cases refused
          simp [relocateItems, refers, effect, free, found]

theorem relocateItems_of_accepted (accepted : r.refusal? n = none) (rest : List Node) :
    r.relocateItems (n :: rest) =
      (r.relocateItems rest).cons (r.relocated n) (if (r.goal? n).isSome then 1 else 0) := by
  cases refers : logicalOf? n with
  | none =>
      have stays : r.goal? n = none := by rw [goal?, refers, Option.bind_none]
      simp [relocateItems, refers, stays, relocated_of_goal_none stays]
  | some logical =>
      rw [refusal?, refers, Option.bind_some] at accepted
      by_cases target : logical ∈ r.targets
      · have stays : r.goal? n = none := by rw [goal?, refers, Option.bind_some, if_pos target]
        simp [relocateItems, refers, effect, target, stays, relocated_of_goal_none stays]
      · rw [if_neg target] at accepted
        have whole : r.goal? n = (r.table.lookup logical).bind (·.target?) := by
          rw [goal?, refers, Option.bind_some, if_neg target]
        cases found : r.table.lookup logical with
        | none =>
            have stays : r.goal? n = none := by rw [whole, found, Option.bind_none]
            simp [relocateItems, refers, effect, target, found, stays,
              relocated_of_goal_none stays]
        | some relocation =>
            cases relocation with
            | moved goal =>
                have moves : r.goal? n = some goal := by rw [whole, found]; rfl
                simp [relocateItems, refers, effect, target, found, moves,
                  relocated_of_goal moves]
            | invalid fault => simp [found] at accepted

/-- Items of which none is refused are relocated each for itself, before those that follow. -/
theorem relocateItems_append {before : List Node} (accepted : ∀ n ∈ before, r.refusal? n = none)
    (rest : List Node) :
    r.relocateItems (before ++ rest) =
      ⟨before.map r.relocated ++ (r.relocateItems rest).items,
        r.moves before + (r.relocateItems rest).changed, (r.relocateItems rest).refused⟩ := by
  induction before with
  | nil => simp [moves]
  | cons n before ih =>
      obtain ⟨first, others⟩ := List.forall_mem_cons.mp accepted
      rw [List.cons_append, relocateItems_of_accepted first, ih others]
      simp only [Relocated.cons, moves, List.countP_cons, List.map_cons, List.cons_append]
      congr 1
      omega

theorem relocateItems_of_all_accepted {items : List Node}
    (accepted : ∀ n ∈ items, r.refusal? n = none) :
    r.relocateItems items = ⟨items.map r.relocated, r.moves items, none⟩ := by
  have whole := relocateItems_append accepted []
  rwa [List.append_nil, relocateItems, List.append_nil, Nat.add_zero] at whole

theorem accepted_relocated {items : List Node} (accepted : ∀ n ∈ items, r.refusal? n = none) :
    ∀ n ∈ items.map r.relocated, r.refusal? n = none := by
  intro n member
  obtain ⟨m, inside, rfl⟩ := List.mem_map.mp member
  exact refusal?_relocated (accepted m inside)

theorem map_relocated_relocated (r : Relocations) (items : List Node) :
    (items.map r.relocated).map r.relocated = items.map r.relocated := by
  rw [List.map_map]
  apply List.map_congr_left
  intro n _
  exact relocated_of_goal_none (goal?_relocated r n)

theorem moves_relocated (r : Relocations) (items : List Node) :
    r.moves (items.map r.relocated) = 0 := by
  rw [moves, List.countP_eq_zero]
  intro n member
  obtain ⟨m, -, rfl⟩ := List.mem_map.mp member
  simp [goal?_relocated]

/-! ### Units -/

theorem apply_of_accepted {u : SourceUnit} (accepted : ∀ n ∈ u.items, r.refusal? n = none) :
    r.apply u = (.ok (r.moves u.items), u.withItems (u.items.map r.relocated)) := by
  simp only [apply, relocateItems_of_all_accepted accepted]

theorem apply_of_refusal {u : SourceUnit} {before rest : List Node}
    (items : u.items = before ++ n :: rest) (accepted : ∀ m ∈ before, r.refusal? m = none)
    (refused : r.refusal? n = some (logical, fault)) :
    r.apply u = (.error (.relocation u.path logical fault.message),
      u.withItems (before.map r.relocated ++ n :: rest)) := by
  simp only [apply, items, relocateItems_append accepted, relocateItems_of_refusal refused]

/-- Items of which one is refused have a first such item. -/
theorem exists_first_refusal {items : List Node}
    (refuses : ¬ ∀ n ∈ items, r.refusal? n = none) :
    ∃ before n rest logical fault, items = before ++ n :: rest ∧
      (∀ m ∈ before, r.refusal? m = none) ∧ r.refusal? n = some (logical, fault) := by
  induction items with
  | nil => exact absurd (by simp) refuses
  | cons n items ih =>
      cases refused : r.refusal? n with
      | some e => exact ⟨[], n, items, e.1, e.2, rfl, by simp, refused⟩
      | none =>
          have others : ¬ ∀ m ∈ items, r.refusal? m = none := fun accepted =>
            refuses (List.forall_mem_cons.mpr ⟨refused, accepted⟩)
          obtain ⟨before, m, rest, logical, fault, rfl, accepted, found⟩ := ih others
          exact ⟨n :: before, m, rest, logical, fault, rfl,
            List.forall_mem_cons.mpr ⟨refused, accepted⟩, found⟩

/-- **Relocation, once and again.** Relocating a unit succeeds exactly when none of its references
is refused. Then every reference with a goal leads to it, their number is the answer, and nothing
else has changed; relocating the unit again moves nothing. Otherwise the error names the first
reference that is refused. The references before it lead to their goals, it and what follows it are
as they were, and relocating the unit again gives the same error and the same unit. -/
theorem relocates_again (index : PackageIndex) (sourceRoot outputRoot : Path) (u : SourceUnit) :
    let r := ofIndex index sourceRoot outputRoot
    ((∃ changed, (r.apply u).1 = .ok changed) ↔ ∀ n ∈ u.items, r.refusal? n = none) ∧
    ((∀ n ∈ u.items, r.refusal? n = none) →
      let after := u.withItems (u.items.map r.relocated)
      r.apply u = (.ok (r.moves u.items), after) ∧ r.apply after = (.ok 0, after)) ∧
    ((¬ ∀ n ∈ u.items, r.refusal? n = none) →
      ∃ before n rest logical fault, u.items = before ++ n :: rest ∧
        (∀ m ∈ before, r.refusal? m = none) ∧ r.refusal? n = some (logical, fault) ∧
        let error := Error.relocation u.path logical fault.message
        let after := u.withItems (before.map r.relocated ++ n :: rest)
        r.apply u = (.error error, after) ∧ r.apply after = (.error error, after)) := by
  intro r
  have succeeds : (∀ n ∈ u.items, r.refusal? n = none) →
      let after := u.withItems (u.items.map r.relocated)
      r.apply u = (.ok (r.moves u.items), after) ∧ r.apply after = (.ok 0, after) := by
    intro accepted after
    have again : ∀ n ∈ after.items, r.refusal? n = none := accepted_relocated accepted
    refine ⟨apply_of_accepted accepted, ?_⟩
    rw [apply_of_accepted again, SourceUnit.items_withItems, moves_relocated,
      map_relocated_relocated]
    rfl
  have fails : (¬ ∀ n ∈ u.items, r.refusal? n = none) →
      ∃ before n rest logical fault, u.items = before ++ n :: rest ∧
        (∀ m ∈ before, r.refusal? m = none) ∧ r.refusal? n = some (logical, fault) ∧
        let error := Error.relocation u.path logical fault.message
        let after := u.withItems (before.map r.relocated ++ n :: rest)
        r.apply u = (.error error, after) ∧ r.apply after = (.error error, after) := by
    intro refuses
    obtain ⟨before, n, rest, logical, fault, items, accepted, refused⟩ :=
      exists_first_refusal refuses
    refine ⟨before, n, rest, logical, fault, items, accepted, refused,
      apply_of_refusal items accepted refused, ?_⟩
    rw [apply_of_refusal (SourceUnit.items_withItems u _) (accepted_relocated accepted) refused,
      map_relocated_relocated]
    rfl
  refine ⟨⟨?_, fun accepted => ⟨_, by rw [(succeeds accepted).1]⟩⟩, succeeds, fails⟩
  rintro ⟨changed, succeeded⟩
  by_cases accepted : ∀ n ∈ u.items, r.refusal? n = none
  · exact accepted
  · obtain ⟨before, n, rest, logical, fault, -, -, -, failed, -⟩ := fails accepted
    rw [failed] at succeeded
    cases succeeded

/-- Two packages below one root, the second of which does not stand where its path says. -/
def renamedIndex : PackageIndex :=
  (PackageIndex.empty.insert "demo/net" ⟨"/w/demo/net"⟩).insert "demo/old" ⟨"/w/demo/new"⟩

/-- A unit that refers to the first package, to the second, and to the first once more. -/
def renamedUnit : SourceUnit :=
  .ofItems ⟨⟨"/w/demo/a.rmc"⟩, ""⟩ none
    [.list .reference "import" [.literal "demo/net"],
      .list .reference "import" [.literal "demo/old"],
      .list .reference "import" [.literal "demo/net"]]

theorem relocates_again_renamedUnit :
    let r := ofIndex renamedIndex ⟨"/w/demo"⟩ ⟨"/w/out"⟩
    ∃ after, r.apply renamedUnit =
        (.error (.relocation ⟨"/w/demo/a.rmc"⟩ "demo/old" "path does not end with new"), after) ∧
      after.referencePaths = ["out/net", "demo/old", "demo/net"] ∧
      r.apply after = r.apply renamedUnit := by
  intro r
  have refuses : ¬ ∀ n ∈ renamedUnit.items, r.refusal? n = none := by decide
  have left : r.relocateItems renamedUnit.items =
      ⟨[.list .reference "import" [.literal "out/net"],
        .list .reference "import" [.literal "demo/old"],
        .list .reference "import" [.literal "demo/net"]], 1,
        some ("demo/old", .otherDirectory "new")⟩ := by
    decide
  obtain ⟨before, n, rest, logical, fault, -, -, -, once, again⟩ :=
    (relocates_again renamedIndex ⟨"/w/demo"⟩ ⟨"/w/out"⟩ renamedUnit).2.2 refuses
  have first : r.apply renamedUnit =
      (.error (.relocation ⟨"/w/demo/a.rmc"⟩ "demo/old" "path does not end with new"),
        renamedUnit.withItems (r.relocateItems renamedUnit.items).items) := by
    simp only [apply, left]
    rfl
  have reached := (Prod.mk.inj (first.symm.trans once)).2
  refine ⟨_, first, by rw [left]; rfl, ?_⟩
  rw [reached]
  exact again.trans once.symm

end Graft.Relocations
