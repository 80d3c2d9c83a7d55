import Graft.Proofs.Discovery.Units
import Graft.Proofs.Path.FileNames
import Graft.Proofs.Relocation.Again
import Graft.Proofs.Relocation.LogicalPaths

/-!
# Relocated packages

The logical path of a package is built from its directory, and a relocation takes it apart again.
Both agree: a reference to the package of a directory comes to name the package that the same
directory is below the other root, and no reference is refused. The module path there is the old
one with the name of the other root for its last segment. If that is the old module path itself,
all packages are targets and none is moved, which is what their relocation asks for. Otherwise no
package is a target, since module paths of the same length are told apart.

This is about directories below the root that are called by names, as a survey finds them.
-/

namespace Graft

open Graft.Path (IsName IsStep ofPieces)

/-! ### Indices -/

namespace PackageIndex

variable {α : Type} {logical logical' : String} {dir : Path} {packages : List (String × Path)}

theorem lookup_cons_eq (logical logical' : String) (dir : Path) (packages : List (String × Path)) :
    List.lookup logical' ((logical, dir) :: packages) =
      if logical' = logical then some dir else packages.lookup logical' := by
  by_cases same : logical' = logical
  · simp [same]
  · rw [List.lookup_cons, beq_false_of_ne same, if_neg same]

theorem lookup_insertIn (logical logical' : String) (dir : Path)
    (packages : List (String × Path)) :
    (insertIn logical dir packages).lookup logical' =
      if logical' = logical then some dir else packages.lookup logical' := by
  induction packages with
  | nil => exact lookup_cons_eq logical logical' dir []
  | cons head rest ih =>
      obtain ⟨l, d⟩ := head
      rw [insertIn]
      split
      · exact lookup_cons_eq logical logical' dir _
      · split
        · next here =>
            rw [lookup_cons_eq, lookup_cons_eq, here]
            split <;> rfl
        · next other =>
            rw [lookup_cons_eq, lookup_cons_eq, ih]
            by_cases first : logical' = l
            · subst first
              rw [if_pos rfl, if_neg (Ne.symm other), if_pos rfl]
            · rw [if_neg first, if_neg first]

theorem mem_insertIn {e : String × Path} (member : e ∈ insertIn logical dir packages) :
    e = (logical, dir) ∨ e ∈ packages := by
  induction packages with
  | nil => exact Or.inl (List.mem_singleton.mp member)
  | cons head rest ih =>
      obtain ⟨l, d⟩ := head
      rw [insertIn] at member
      split at member
      · exact List.mem_cons.mp member
      · split at member
        · exact (List.mem_cons.mp member).imp_right (List.mem_cons_of_mem _)
        · rcases List.mem_cons.mp member with rfl | later
          · exact Or.inr List.mem_cons_self
          · exact (ih later).imp_right (List.mem_cons_of_mem _)

/-- An index made by insertions finds what was inserted last. -/
theorem get?_foldl_insert (package : α → String × Path) (items : List α) (index : PackageIndex)
    (logical : String) :
    (items.foldl (fun i a => i.insert (package a).1 (package a).2) index).get? logical =
      ((items.reverse.find? fun a => (package a).1 = logical).map fun a => (package a).2).or
        (index.get? logical) := by
  induction items generalizing index with
  | nil => simp
  | cons a rest ih =>
      rw [List.foldl_cons, ih, List.reverse_cons, List.find?_append]
      cases rest.reverse.find? fun a => (package a).1 = logical with
      | some b => simp
      | none =>
          by_cases same : (package a).1 = logical
          · simp [get?, insert, lookup_insertIn, same]
          · simp [get?, insert, lookup_insertIn, same, Ne.symm same]

theorem mem_foldl_insert (package : α → String × Path) {items : List α} {index : PackageIndex}
    {e : String × Path}
    (member : e ∈ (items.foldl (fun i a => i.insert (package a).1 (package a).2) index).packages) :
    (∃ a ∈ items, e = package a) ∨ e ∈ index.packages := by
  induction items generalizing index with
  | nil => exact Or.inr member
  | cons a rest ih =>
      rcases ih member with ⟨b, inside, same⟩ | before
      · exact Or.inl ⟨b, List.mem_cons_of_mem _ inside, same⟩
      · rcases mem_insertIn before with here | older
        · exact Or.inl ⟨a, List.mem_cons_self, here⟩
        · exact Or.inr older

end PackageIndex

/-- The directories of units, relative to the root. -/
def UnitEntry.directories (entries : List UnitEntry) : List Path :=
  entries.filterMap (·.relative.parent?)

/-- A unit that is found some names below the root. -/
def UnitEntry.Ordinary (e : UnitEntry) : Prop :=
  ∃ names, (∀ name ∈ names, IsName name) ∧ e.relative = Path.below ⟨""⟩ names

namespace Survey

variable {s : Survey} {fs : FileSystem} {entries : List UnitEntry} {e : UnitEntry} {dir : Path}
variable {ns : List String}

theorem ordinary_of_mem_discover (named : fs.root.wellNamed = true)
    (discovered : s.discover fs = .ok entries) (member : e ∈ entries) : e.Ordinary := by
  obtain ⟨_, _, names, -, -, finds⟩ := finds_of_mem_discover named discovered member
  exact ⟨names, fun name inside => (finds.named name inside).1, finds.mirrored⟩

/-- The directory of a unit is some names below the root. -/
theorem names_of_mem_directories (ordinary : ∀ e ∈ entries, e.Ordinary)
    (member : dir ∈ UnitEntry.directories entries) :
    ∃ ns, (∀ n ∈ ns, IsName n) ∧ dir = ofPieces false ns := by
  obtain ⟨e, inside, above⟩ := List.mem_filterMap.mp member
  obtain ⟨names, named, relative⟩ := ordinary e inside
  have steps : ∀ n ∈ names, IsStep n := fun n member => (named n member).toIsStep
  rw [Path.below_empty steps] at relative
  rcases List.eq_nil_or_concat names with rfl | ⟨front, last, rfl⟩
  · rw [relative] at above
    cases above
  · rw [List.concat_eq_append] at named steps relative
    have fits : Path.Fits false (front ++ [last]) := Path.fits_of_steps steps
    have pieces := Path.pieces_ofPieces fits
    rw [if_neg (by simp), ← relative] at pieces
    obtain ⟨kept, dropped, split, blank, parent⟩ :=
      Path.parent?_eq_some pieces (steps last (by simp)).counts
    have none : dropped = [] := by
      rw [List.eq_nil_iff_forall_not_mem]
      intro piece inside
      have counted := (steps piece (by simp [split, inside])).counts
      rw [blank piece inside] at counted
      cases counted
    rw [none, List.append_nil] at split
    rw [parent, relative, Path.isAbsolute_ofPieces fits] at above
    cases above
    exact ⟨kept, fun n inside => named n (by simp [split, inside]), rfl⟩

/-- The package of a directory some names below the root. -/
theorem package_ofPieces (s : Survey) (steps : ∀ n ∈ ns, IsStep n) :
    s.package (ofPieces false ns) =
      (Relocation.under s.moduleName ns,
        if ns = [] then s.root else s.root.join (ofPieces false ns)) := by
  have texts : (ofPieces false ns).components.map (·.text) = ns := by
    rw [Path.components_eq, Path.lead_ofPieces steps, Path.names_ofPieces_of_steps steps,
      List.nil_append, List.map_map]
    simp [Function.comp_def, Path.text_named]
  unfold package Relocation.under
  rw [texts]
  cases ns <;> rfl

/-- The survey of the same directories below another root, whose name stands in the module path for
the last segment. -/
def mirrored (s : Survey) (output : Path) (name : String) : Survey :=
  { s with root := output, modulePath := some (Relocation.withLast s.moduleName name) }

/-- Different directories are different packages. -/
theorem package_inj (ordinary : ∀ e ∈ entries, e.Ordinary) {dir' : Path}
    (member : dir ∈ UnitEntry.directories entries) (member' : dir' ∈ UnitEntry.directories entries)
    (same : (s.package dir).1 = (s.package dir').1) : dir = dir' := by
  obtain ⟨ns, named, rfl⟩ := names_of_mem_directories ordinary member
  obtain ⟨ns', named', rfl⟩ := names_of_mem_directories ordinary member'
  have steps : ∀ n ∈ ns, IsStep n := fun n inside => (named n inside).toIsStep
  have steps' : ∀ n ∈ ns', IsStep n := fun n inside => (named' n inside).toIsStep
  rw [package_ofPieces s steps, package_ofPieces s steps'] at same
  rw [(Relocation.under_inj steps steps' rfl same).2]

theorem packageIndex_eq (s : Survey) (entries : List UnitEntry) :
    s.packageIndex entries = (UnitEntry.directories entries).foldl
      (fun i dir => i.insert (s.package dir).1 (s.package dir).2) .empty := rfl

/-- The index of packages has the directory of every unit. -/
theorem get?_packageIndex (ordinary : ∀ e ∈ entries, e.Ordinary)
    (member : dir ∈ UnitEntry.directories entries) :
    (s.packageIndex entries).get? (s.package dir).1 = some (s.package dir).2 := by
  rw [packageIndex_eq, PackageIndex.get?_foldl_insert]
  cases found : (UnitEntry.directories entries).reverse.find? fun a =>
      decide ((s.package a).1 = (s.package dir).1) with
  | none =>
      rw [List.find?_eq_none] at found
      exact absurd (by simp) (found dir (List.mem_reverse.mpr member))
  | some other =>
      have inside := List.mem_reverse.mp (List.mem_of_find?_eq_some found)
      have same := List.find?_some found
      rw [decide_eq_true_eq] at same
      rw [package_inj ordinary inside member same]
      rfl

theorem mem_packages {p : String × Path} (member : p ∈ (s.packageIndex entries).packages) :
    ∃ dir ∈ UnitEntry.directories entries, p = s.package dir := by
  rw [packageIndex_eq] at member
  rcases PackageIndex.mem_foldl_insert s.package member with inside | outside
  · exact inside
  · cases outside

end Survey

/-! ### Effects on a unit -/

namespace Relocations

variable {r : Relocations} {n : Node} {logical : String}

/-- An item that leads to where `move` says: a reference has the new path for the value of its first
child, and nothing else of it is changed. -/
def readdress (move : String → String) (n : Node) : Node :=
  match n.kind, n.children with
  | .reference, c :: rest => { n with children := { c with value := move c.value } :: rest }
  | _, _ => n

/-- A reference that `move` leads elsewhere. -/
def departs (move : String → String) (n : Node) : Bool :=
  match n.kind, n.children with
  | .reference, c :: _ => decide (move c.value ≠ c.value)
  | _, _ => false

/-- An item that is no reference, or one to a path that `move` keeps, stays as it is. -/
theorem readdress_of_stays {move : String → String}
    (stays : ∀ logical, logicalOf? n = some logical → move logical = logical) :
    readdress move n = n ∧ departs move n = false := by
  obtain ⟨kind, value, span, doc, children⟩ := n
  unfold readdress departs
  split
  · next c rest isReference list =>
      cases isReference
      cases list
      have same : move c.value = c.value := stays c.value rfl
      obtain ⟨k, v, s, d, cs⟩ := c
      simp only [same, ne_eq, not_true_eq_false, decide_false, and_self]
  · exact ⟨rfl, rfl⟩

/-- Where a reference leads after relocation, if it is not refused. -/
def target (r : Relocations) (logical : String) : String :=
  match r.effect logical with
  | .move target => target
  | _ => logical

/-- A reference has a goal exactly when it leads elsewhere afterwards: what is a target stays. -/
theorem goal?_of_refers (refers : logicalOf? n = some logical) :
    r.goal? n = if r.target logical = logical then none else some (r.target logical) := by
  rw [goal?, refers, Option.bind_some]
  by_cases isTarget : logical ∈ r.targets
  · simp [target, effect, isTarget]
  · cases found : r.table.lookup logical with
    | none => simp [target, effect, isTarget, found]
    | some relocation =>
        cases relocation with
        | invalid fault => simp [target, effect, isTarget, found, Relocation.target?]
        | moved goal =>
            have moves : r.goal? n = some goal := by
              rw [goal?, refers, Option.bind_some, if_neg isTarget, found]
              rfl
            have other : goal ≠ logical := fun same =>
              isTarget (same ▸ mem_targets_of_goal moves)
            simp [target, effect, isTarget, found, Relocation.target?, other]

/-- An item is relocated to where its reference leads. -/
theorem relocated_eq_readdress (r : Relocations) (n : Node) :
    r.relocated n = readdress r.target n ∧ (r.goal? n).isSome = departs r.target n := by
  cases goal : r.goal? n with
  | none =>
      have stays : ∀ logical, logicalOf? n = some logical → r.target logical = logical := by
        intro logical refers
        rw [goal?_of_refers refers] at goal
        by_contra moves
        rw [if_neg moves] at goal
        cases goal
      obtain ⟨same, whole⟩ := readdress_of_stays stays
      rw [relocated_of_goal_none goal, same, whole]
      exact ⟨rfl, rfl⟩
  | some path =>
      obtain ⟨logical, refers, -⟩ := Option.bind_eq_some_iff.mp goal
      obtain ⟨kind, c, rest, children, rfl⟩ := logicalOf?_eq_some_iff.mp refers
      have moves := goal
      rw [goal?_of_refers refers] at moves
      split at moves
      · cases moves
      · next other =>
          cases moves
          simp [relocated, readdress, departs, goal, kind, children, other]

theorem refusal?_of_accepts (accepts : ∀ logical fault, r.effect logical ≠ .refuse fault)
    (n : Node) : r.refusal? n = none := by
  rw [refusal?, Option.bind_eq_none_iff]
  intro logical _
  split
  · rfl
  · next free =>
      cases found : r.table.lookup logical with
      | none => rfl
      | some relocation =>
          cases relocation with
          | moved goal => rfl
          | invalid fault => exact absurd (by simp [effect, free, found]) (accepts logical fault)

/-- Relocations that refuse no reference lead every one of every unit to its target, and answer how
many of them this moves. -/
theorem apply_of_accepts (accepts : ∀ logical fault, r.effect logical ≠ .refuse fault)
    (u : SourceUnit) :
    r.apply u = (.ok (u.items.countP (departs r.target)),
      u.withItems (u.items.map (readdress r.target))) := by
  have items : u.items.map r.relocated = u.items.map (readdress r.target) :=
    List.map_congr_left fun n _ => (relocated_eq_readdress r n).1
  have count : r.moves u.items = u.items.countP (departs r.target) :=
    List.countP_congr fun n _ => by rw [(relocated_eq_readdress r n).2]
  rw [apply_of_accepted fun n _ => refusal?_of_accepts accepts n, items, count]

/-! ### Relocation to another root -/

section Mirrored

variable {s : Survey} {entries : List UnitEntry} {output dir : Path} {name : String}

/-- The relocations of the packages of a survey to another root. -/
abbrev ofSurvey (s : Survey) (entries : List UnitEntry) (output : Path) : Relocations :=
  ofIndex (s.packageIndex entries) s.root output

/-- The package of a directory goes to the package of that directory below the other root. -/
theorem ofEntry_package (ordinary : ∀ e ∈ entries, e.Ordinary)
    (last : output.fileName? = some name) (member : dir ∈ UnitEntry.directories entries) :
    ofEntry s.root output (s.package dir) =
      some ((s.package dir).1, .moved ((s.mirrored output name).package dir).1) := by
  obtain ⟨ns, named, rfl⟩ := Survey.names_of_mem_directories ordinary member
  have steps : ∀ n ∈ ns, IsStep n := fun n inside => (named n inside).toIsStep
  have after : (if ns = [] then s.root else s.root.join (ofPieces false ns)).componentsAfter?
      s.root = some (ns.map Path.named) := by
    split
    · next none => rw [none]; exact Path.componentsAfter?_self s.root
    · next given =>
        rw [Path.componentsAfter?_join (Path.isAbsolute_ofPieces (Path.fits_of_steps steps))
          (Path.lead_ofPieces steps), Path.names_ofPieces_of_steps steps]
  have texts : (ns.map Path.named).map (·.text) = ns := by
    simp [Function.comp_def, Path.text_named]
  simp only [Survey.package_ofPieces _ steps, ofEntry, after, Option.map_some, texts, last,
    Relocation.ofPackage_under _ _ steps]
  rfl

/-- Values that are found under the key of a pair. -/
theorem lookup_filterMap {f : String × Path → Option (String × Relocation)}
    {packages : List (String × Path)} (keyed : ∀ e ∈ packages, ∃ v, f e = some (e.1, v))
    (logical : String) :
    (packages.filterMap f).lookup logical =
      (packages.lookup logical).bind fun place => (f (logical, place)).map (·.2) := by
  induction packages with
  | nil => rfl
  | cons e rest ih =>
      obtain ⟨v, here⟩ := keyed e List.mem_cons_self
      rw [List.filterMap_cons_some here, List.lookup_cons, List.lookup_cons,
        ih fun e inside => keyed e (List.mem_cons_of_mem _ inside)]
      split
      · next same =>
          rw [Option.bind_some, eq_of_beq same, here]
          rfl
      · rfl

variable (ordinary : ∀ e ∈ entries, e.Ordinary) (last : output.fileName? = some name)

include ordinary last

/-- What the table has was made from the package of a directory. -/
theorem mem_table {e : String × Relocation} (member : e ∈ (ofSurvey s entries output).table) :
    ∃ dir ∈ UnitEntry.directories entries,
      e = ((s.package dir).1, .moved ((s.mirrored output name).package dir).1) := by
  obtain ⟨p, inside, made⟩ := List.mem_filterMap.mp member
  obtain ⟨dir, known, rfl⟩ := Survey.mem_packages inside
  rw [ofEntry_package ordinary last known] at made
  exact ⟨dir, known, (Option.some.inj made).symm⟩

theorem lookup_table (logical : String) :
    (ofSurvey s entries output).table.lookup logical =
      ((s.packageIndex entries).get? logical).bind fun place =>
        (ofEntry s.root output (logical, place)).map (·.2) := by
  apply lookup_filterMap
  intro e inside
  obtain ⟨dir, known, rfl⟩ := Survey.mem_packages inside
  exact ⟨_, ofEntry_package ordinary last known⟩

/-- No reference is refused. -/
theorem effect_ne_refuse (logical : String) (fault : RelocationFault) :
    (ofSurvey s entries output).effect logical ≠ .refuse fault := by
  unfold effect
  split
  · simp
  · split
    · simp
    · simp
    · next invalid found =>
        obtain ⟨front, back, split, -⟩ := List.lookup_eq_some_iff.mp found
        have inside : (logical, .invalid invalid) ∈ (ofSurvey s entries output).table := by
          simp [split]
        obtain ⟨dir, -, same⟩ := mem_table ordinary last inside
        cases same

theorem target_of_unknown {logical : String}
    (unknown : (s.packageIndex entries).get? logical = none) :
    (ofSurvey s entries output).target logical = logical := by
  have free := lookup_table ordinary last (s := s) logical
  rw [unknown, Option.bind_none] at free
  simp only [target, effect, free, ite_self]

theorem mem_targets {logical : String} (member : logical ∈ (ofSurvey s entries output).targets) :
    ∃ dir ∈ UnitEntry.directories entries,
      logical = ((s.mirrored output name).package dir).1 := by
  obtain ⟨e, inside, goal⟩ := List.mem_filterMap.mp member
  obtain ⟨dir, known, rfl⟩ := mem_table ordinary last inside
  exact ⟨dir, known, (Option.some.inj goal).symm⟩

/-- A package whose logical path is a target is the package at that target: the module path stays
as it is. -/
theorem package_eq_of_mem_targets (member : dir ∈ UnitEntry.directories entries)
    (isTarget : (s.package dir).1 ∈ (ofSurvey s entries output).targets) :
    (s.package dir).1 = ((s.mirrored output name).package dir).1 := by
  obtain ⟨dir', member', same⟩ := mem_targets ordinary last isTarget
  obtain ⟨ns, named, rfl⟩ := Survey.names_of_mem_directories ordinary member
  obtain ⟨ns', named', rfl⟩ := Survey.names_of_mem_directories ordinary member'
  have steps : ∀ n ∈ ns, IsStep n := fun n inside => (named n inside).toIsStep
  have steps' : ∀ n ∈ ns', IsStep n := fun n inside => (named' n inside).toIsStep
  have whole := (Path.isName_of_fileName? last).whole
  rw [Survey.package_ofPieces _ steps] at same ⊢
  rw [Survey.package_ofPieces _ steps'] at same
  obtain ⟨modules, dirs⟩ := Relocation.under_inj steps steps'
    (Relocation.length_segments_withLast s.moduleName whole).symm same
  rw [same, dirs, Survey.package_ofPieces _ steps']

/-- A reference to a package leads to the package of the same directory. -/
theorem target_package (member : dir ∈ UnitEntry.directories entries) :
    (ofSurvey s entries output).target (s.package dir).1 =
      ((s.mirrored output name).package dir).1 := by
  have found := lookup_table ordinary last (s := s) (s.package dir).1
  rw [Survey.get?_packageIndex ordinary member, Option.bind_some,
    ofEntry_package ordinary last member, Option.map_some] at found
  by_cases isTarget : (s.package dir).1 ∈ (ofSurvey s entries output).targets
  · rw [← package_eq_of_mem_targets ordinary last member isTarget]
    simp [target, effect, isTarget]
  · simp [target, effect, isTarget, found]

omit ordinary in
/-- A module path that is the name of the root becomes the name of the other root. -/
theorem moduleName_mirrored (unnamed : s.modulePath = none) :
    (s.mirrored output name).moduleName = { s with root := output }.moduleName := by
  have whole : '/' ∉ s.moduleName.toList := by
    rw [Survey.moduleName, unnamed, Option.getD_none]
    cases own : s.root.fileName? with
    | none => simp
    | some text => exact (Path.isName_of_fileName? own).whole
  have here : (s.mirrored output name).moduleName = Relocation.withLast s.moduleName name := rfl
  rw [here, Relocation.withLast_of_whole whole, Survey.moduleName, unnamed, last]
  rfl

/-- **Relocated packages.** The relocations of the packages of a survey to another root refuse no
reference of any unit. In the unit that they leave, a reference to the package of a directory names
the package of the same directory below the other root, as the index of packages there has it, and
everything else is as it was; the answer is the number of references that name another package now.
The package of a directory is the module path followed by the names of the directory. Different
directories stay different packages. -/
theorem relocates_packages :
    ∃ move : String → String,
      (∀ u, (ofIndex (s.packageIndex entries) s.root output).apply u =
        (.ok (u.items.countP (departs move)), u.withItems (u.items.map (readdress move)))) ∧
      (∀ dir ∈ UnitEntry.directories entries, ∃ ns, (∀ n ∈ ns, IsName n) ∧
        dir = ofPieces false ns ∧
        s.package dir =
          (Relocation.under s.moduleName ns, if ns = [] then s.root else s.root.join dir) ∧
        (s.mirrored output name).package dir =
          (Relocation.under (Relocation.withLast s.moduleName name) ns,
            if ns = [] then output else output.join dir)) ∧
      (∀ dir ∈ UnitEntry.directories entries,
        (s.packageIndex entries).get? (s.package dir).1 = some (s.package dir).2 ∧
        move (s.package dir).1 = ((s.mirrored output name).package dir).1 ∧
        ((s.mirrored output name).packageIndex entries).get? (move (s.package dir).1) =
          some ((s.mirrored output name).package dir).2) ∧
      (∀ logical, (s.packageIndex entries).get? logical = none → move logical = logical) ∧
      (∀ dir ∈ UnitEntry.directories entries, ∀ dir' ∈ UnitEntry.directories entries,
        move (s.package dir).1 = move (s.package dir').1 → dir = dir') ∧
      (s.modulePath = none →
        (s.mirrored output name).moduleName = { s with root := output }.moduleName) := by
  refine ⟨(ofSurvey s entries output).target, ?_, ?_, ?_, ?_, ?_, moduleName_mirrored last⟩
  · exact apply_of_accepts (effect_ne_refuse ordinary last)
  · intro dir member
    obtain ⟨ns, named, rfl⟩ := Survey.names_of_mem_directories ordinary member
    have steps : ∀ n ∈ ns, IsStep n := fun n inside => (named n inside).toIsStep
    exact ⟨ns, named, rfl, Survey.package_ofPieces s steps,
      Survey.package_ofPieces (s.mirrored output name) steps⟩
  · intro dir member
    have moved := target_package ordinary last (s := s) member
    refine ⟨Survey.get?_packageIndex ordinary member, moved, ?_⟩
    rw [moved]
    exact Survey.get?_packageIndex ordinary member
  · exact fun logical => target_of_unknown ordinary last
  · intro dir member dir' member' same
    rw [target_package ordinary last member, target_package ordinary last member'] at same
    exact Survey.package_inj ordinary member member' same

end Mirrored

/-- The units of two directories. -/
def nestedUnits : List UnitEntry :=
  [⟨⟨"/w/src/a.rmc"⟩, ⟨"a.rmc"⟩⟩, ⟨⟨"/w/src/net/b.rmc"⟩, ⟨"net/b.rmc"⟩⟩]

def nestedSurvey : Survey := .ofRoot Sexp.frontend ⟨"/w/src"⟩

theorem relocates_packages_nestedUnits :
    ∃ move : String → String,
      (∀ u, (ofIndex (nestedSurvey.packageIndex nestedUnits) ⟨"/w/src"⟩ ⟨"/w/out"⟩).apply u =
        (.ok (u.items.countP (departs move)), u.withItems (u.items.map (readdress move)))) ∧
      move "src" = "out" ∧ move "src/net" = "out/net" ∧ move "net" = "net" := by
  have ordinary : ∀ e ∈ nestedUnits, e.Ordinary := by
    intro e member
    simp only [nestedUnits, List.mem_cons, List.not_mem_nil, or_false] at member
    rcases member with rfl | rfl
    · exact ⟨["a.rmc"], by decide, by decide⟩
    · exact ⟨["net", "b.rmc"], by decide, by decide⟩
  have last : Path.fileName? ⟨"/w/out"⟩ = some "out" := by decide
  obtain ⟨move, applies, -, packages, others, -⟩ :=
    relocates_packages (s := nestedSurvey) ordinary last
  refine ⟨move, applies, ?_, ?_, others "net" (by decide)⟩
  · exact (packages ⟨""⟩ (by decide)).2.1
  · exact (packages ⟨"net"⟩ (by decide)).2.1

end Relocations

end Graft
