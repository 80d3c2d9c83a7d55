import Graft.Expansion
import Graft.Proofs.Registry.Order

/-!
# The passes that a unit asks for

The documentation of a unit and of its items decides, before anything is changed, which passes
there are to be. The registered handlers that an item names itself come first, in the order of
first mention. Those that the unit names follow in the order of registration, without the ones
that the item named. `agenda` lists the passes of all items in source order.

`plan_eq` says that the two look-ups of an expansion come to this plan, and `nodup_agendaFrom`
that no handler is planned twice for one item.
-/

namespace Graft.Expansion

variable {σ : Type}

/-- The handlers planned for an item, given the names that it and the unit ask for. -/
def planned (registry : Registry (Handler σ)) (own unit : List String) :
    List (String × Handler σ) :=
  own.filterMap registry.find? ++ registry.entries.filter fun e => e.1 ∈ unit ∧ e.1 ∉ own

/-- A planned pass. -/
structure Task (σ : Type) where
  /-- The index of the item in the unit as it was. -/
  item : Nat
  name : String
  handler : Handler σ

/-- What tells one planned pass from another. -/
def Task.key (t : Task σ) : Nat × String := (t.item, t.name)

/-- The passes of some handlers over one item. -/
def tasksOf (item : Nat) (handlers : List (String × Handler σ)) : List (Task σ) :=
  handlers.map fun e => ⟨item, e.1, e.2⟩

/-- The passes planned for one item. -/
def tasks (registry : Registry (Handler σ)) (unit : List String) (d : Node × Nat) :
    List (Task σ) :=
  tasksOf d.2 (planned registry (Directives.parse d.1.doc).uses unit)

/-- The passes planned for items, the first of which has the index `i` in its unit. -/
def agendaFrom (registry : Registry (Handler σ)) (unit : List String) (i : Nat)
    (items : List Node) : List (Task σ) :=
  (items.zipIdx i).flatMap (tasks registry unit)

/-- The passes planned for a unit, in order. -/
def agenda (registry : Registry (Handler σ)) (u : SourceUnit) : List (Task σ) :=
  agendaFrom registry (Directives.parse u.doc).uses 0 u.items

variable {registry : Registry (Handler σ)} {unit : List String}

/-! ### The look-ups come to the plan -/

theorem name_of_find? {name : String} {e : String × Handler σ}
    (found : registry.find? name = some e) : e.1 = name := by
  simpa using List.find?_some found

/-- A registered name is in a selection by name exactly when the request has it. -/
theorem contains_getAsNamed (own : List String) {e : String × Handler σ}
    (registered : e ∈ registry.entries) :
    (registry.getAsNamed own).contains e.1 = true ↔ e.1 ∈ own := by
  rw [Selection.contains, Registry.entries_getAsNamed, List.any_eq_true]
  constructor
  · rintro ⟨e', member, same⟩
    obtain ⟨name, asked, found⟩ := List.mem_filterMap.mp member
    rw [List.mem_eraseDups] at asked
    have same : e'.1 = e.1 := of_decide_eq_true same
    rwa [← same, name_of_find? found]
  · intro asked
    cases found : registry.find? e.1 with
    | none =>
        have missing := List.find?_eq_none.mp found e registered
        simp at missing
    | some e' =>
        refine ⟨e', List.mem_filterMap.mpr ⟨e.1, List.mem_eraseDups.mpr asked, found⟩, ?_⟩
        exact decide_eq_true (name_of_find? found)

/-- The plan of an expansion, from its two look-ups. -/
theorem plan_eq (distinct : registry.Distinct) {own : List String} (once : own.Nodup)
    (unit : List String) :
    plan (registry.getAsNamed own) (registry.get unit) = planned registry own unit := by
  rw [plan, planned, Registry.entries_getAsNamed, Registry.entries_get distinct,
    eraseDups_eq_self once, List.filter_filter]
  congr 1
  apply List.filter_congr
  intro e registered
  have asked := contains_getAsNamed own registered
  by_cases member : e.1 ∈ own
  · simp [asked.mpr member, member]
  · have absent : (registry.getAsNamed own).contains e.1 = false := by
      simpa using fun contained => member (asked.mp contained)
    simp [absent, member]

theorem nodup_uses (ds : Directives) : ds.uses.Nodup := nodup_eraseDups _

/-! ### No pass is planned twice -/

/-- No handler is planned twice for one item. -/
theorem nodup_planned (distinct : registry.Distinct) {own : List String} (once : own.Nodup)
    (unit : List String) : ((planned registry own unit).map (·.1)).Nodup := by
  have named : ((own.filterMap registry.find?).map (·.1)).Sublist own := by
    have restricted : (own.filterMap registry.find?).map (·.1) =
        own.filter fun name => (registry.find? name).isSome := by
      rw [List.map_filterMap, ← List.filterMap_eq_filter]
      apply List.filterMap_congr
      intro name _
      cases found : registry.find? name with
      | none => simp [Option.guard, found]
      | some e => simp [Option.guard, found, name_of_find? found]
    rw [restricted]
    exact List.filter_sublist
  have others : ((registry.entries.filter fun e => e.1 ∈ unit ∧ e.1 ∉ own).map (·.1)).Sublist
      registry.names := List.filter_sublist.map _
  rw [planned, List.map_append]
  refine List.nodup_append.mpr ⟨once.sublist named, distinct.sublist others, ?_⟩
  intro name first name' second same
  subst same
  obtain ⟨e, member, rfl⟩ := List.mem_map.mp second
  have foreign := (List.mem_filter.mp member).2
  simp only [decide_eq_true_eq] at foreign
  exact foreign.2 (named.subset first)

theorem item_of_mem_tasksOf {item : Nat} {handlers : List (String × Handler σ)} {t : Task σ}
    (member : t ∈ tasksOf item handlers) : t.item = item := by
  obtain ⟨e, -, rfl⟩ := List.mem_map.mp member
  rfl

/-- A planned pass is over an item of the unit, with a handler that is planned for it. -/
theorem of_mem_agenda {u : SourceUnit} {t : Task σ} (member : t ∈ agenda registry u) :
    ∃ d, u.items[t.item]? = some d ∧
      (t.name, t.handler) ∈
        planned registry (Directives.parse d.doc).uses (Directives.parse u.doc).uses := by
  obtain ⟨⟨d, i⟩, listed, asked⟩ := List.mem_flatMap.mp member
  obtain ⟨e, planned, rfl⟩ := List.mem_map.mp asked
  exact ⟨d, List.mk_mem_zipIdx_iff_getElem?.mp listed, planned⟩

/-- Only registered handlers are planned. -/
theorem mem_entries_of_mem_planned {own : List String} {e : String × Handler σ}
    (member : e ∈ planned registry own unit) : e ∈ registry.entries := by
  rcases List.mem_append.mp member with named | other
  · obtain ⟨name, -, found⟩ := List.mem_filterMap.mp named
    exact List.mem_of_find?_eq_some found
  · exact List.mem_of_mem_filter other

theorem agendaFrom_cons (i : Nat) (d : Node) (items : List Node) :
    agendaFrom registry unit i (d :: items) =
      tasks registry unit (d, i) ++ agendaFrom registry unit (i + 1) items := rfl

theorem le_item_of_mem_agendaFrom {i : Nat} {items : List Node} {t : Task σ}
    (member : t ∈ agendaFrom registry unit i items) : i ≤ t.item := by
  obtain ⟨d, here, planned⟩ := List.mem_flatMap.mp member
  rw [item_of_mem_tasksOf planned]
  exact List.le_snd_of_mem_zipIdx here

/-- No pass is planned twice. -/
theorem nodup_agendaFrom (distinct : registry.Distinct) (unit : List String) (i : Nat)
    (items : List Node) : ((agendaFrom registry unit i items).map Task.key).Nodup := by
  induction items generalizing i with
  | nil => exact List.nodup_nil
  | cons d items ih =>
      rw [agendaFrom_cons, List.map_append]
      refine List.nodup_append.mpr ⟨?_, ih (i + 1), ?_⟩
      · have names := nodup_planned distinct (nodup_uses (Directives.parse d.doc)) unit
        rw [tasks, tasksOf, List.map_map]
        have keys := names.map (f := fun name => (i, name)) fun _ _ same => (Prod.mk.inj same).2
        rwa [List.map_map] at keys
      · intro key here key' later same
        subst same
        obtain ⟨t, member, rfl⟩ := List.mem_map.mp here
        obtain ⟨t', member', same⟩ := List.mem_map.mp later
        have first := item_of_mem_tasksOf member
        have after := le_item_of_mem_agendaFrom member'
        have equal : t'.item = t.item := (Prod.mk.inj same).1
        simp only at first
        omega

/-- The passes of a unit are planned item by item. -/
theorem pairwise_agendaFrom (registry : Registry (Handler σ)) (unit : List String) (i : Nat)
    (items : List Node) :
    (agendaFrom registry unit i items).Pairwise fun t t' => t.item ≤ t'.item := by
  induction items generalizing i with
  | nil => exact List.Pairwise.nil
  | cons d items ih =>
      rw [agendaFrom_cons, List.pairwise_append]
      refine ⟨?_, ih (i + 1), ?_⟩
      · exact List.pairwise_of_forall_mem_list fun t member t' member' => by
          rw [item_of_mem_tasksOf member, item_of_mem_tasksOf member']
      · intro t member t' member'
        rw [item_of_mem_tasksOf member]
        exact Nat.le_of_succ_le (le_item_of_mem_agendaFrom member')

end Graft.Expansion
