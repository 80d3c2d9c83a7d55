import Graft.Expansion
import Graft.Proofs.Walk.Projection

/-!
# Expansions seen through a map of states

When the handlers of one registry correspond to those of another under a map of states, name by
name, the expansions with the two registries correspond as well. `expand_map` states this for
registries that are made of the same entries in two ways.

A registry is stateless when the answers of its handlers do not depend on their state. Its
expansions then correspond to those of a registry of handlers without a state, so what they come
to is the same for every state that they start with: `expand_congr`.
-/

namespace Graft

variable {σ τ α : Type}

/-! ### Registries and selections -/

/-- The values of some entries, made into others. -/
def mapEntries {β : Type} (f : α → β) (entries : List (String × α)) : List (String × β) :=
  entries.map fun e => (e.1, f e.2)

def Selection.map {β : Type} (f : α → β) (s : Selection α) : Selection β :=
  ⟨mapEntries f s.entries⟩

def Registry.map {β : Type} (f : α → β) (r : Registry α) : Registry β :=
  ⟨mapEntries f r.entries, r.index, fun name => by
    rw [r.index_eq, mapEntries, List.map_map]
    rfl⟩

namespace Registry

variable {β : Type} (f : α → β) (r : Registry α)

@[simp] theorem map_id : r.map id = r := by
  simp [map, mapEntries]

@[simp] theorem position?_map (name : String) :
    (r.map f).position? name = r.position? name := rfl

theorem select_map (places : List Nat) : (r.map f).select places = (r.select places).map f := by
  simp only [select, Selection.map, mapEntries, map, List.map_filterMap, List.getElem?_map]

theorem lookup_map (names : List String) : (r.map f).lookup names = r.lookup names := by
  have places : (r.map f).position? = r.position? := funext (position?_map f r)
  rw [lookup, lookup, places]

theorem get_map (names : List String) : (r.map f).get names = (r.get names).map f := by
  rw [get, get, lookup_map, select_map]

theorem getAsNamed_map (names : List String) :
    (r.map f).getAsNamed names = (r.getAsNamed names).map f := by
  rw [getAsNamed, getAsNamed, lookup_map, select_map]

/-- A selection has entries of the registry only. -/
theorem mem_of_mem_select {places : List Nat} {e : String × α}
    (member : e ∈ (r.select places).entries) : e ∈ r.entries := by
  obtain ⟨i, -, here⟩ := List.mem_filterMap.mp member
  exact List.mem_of_getElem? here

end Registry

namespace Expansion

/-- The results of the passes over an item, with the state seen through a map. -/
def ItemDone.map (π : σ → τ) (d : ItemDone σ) : ItemDone τ := { d with session := d.session.map π }

end Expansion

def Expanded.map (π : σ → τ) (e : Expanded σ) : Expanded τ := { e with session := e.session.map π }

namespace Expansion

def Outcome.map (π : σ → τ) (o : Outcome σ) : Outcome τ := { o with session := o.session.map π }

variable {π : σ → τ} {f : α → Handler σ} {g : α → Handler τ} {budget : Nat}

/-- The entries that a plan for two selections is made of. -/
def chosen (own unit : Selection α) : List (String × α) :=
  own.entries ++ unit.entries.filter fun e => !own.contains e.1

theorem plan_map (f : α → Handler σ) (own unit : Selection α) :
    plan (own.map f) (unit.map f) = mapEntries f (chosen own unit) := by
  have asked : ∀ name, (own.map f).contains name = own.contains name := fun name => by
    simp [Selection.contains, Selection.map, mapEntries, List.any_map, Function.comp_def]
  simp only [plan, chosen, asked]
  simp [Selection.map, mapEntries, List.filter_map, Function.comp_def]

/-- The passes over an item correspond. -/
theorem passes_map {source : SourceText} {directives unit : Directives} {parent : Parent}
    (entries : List (String × α)) (projects : ∀ e ∈ entries, (f e.2).Projects π (g e.2))
    (session : Session σ) (items : List Node) (place applied : Nat) :
    passes source directives unit parent budget (mapEntries g entries) (session.map π) items place
        applied =
      (passes source directives unit parent budget (mapEntries f entries) session items place
        applied).map (ItemDone.map π) := by
  induction entries generalizing session items place applied with
  | nil => rfl
  | cons e entries ih =>
      have first := projects e List.mem_cons_self
      have later := ih fun e member => projects e (List.mem_cons_of_mem _ member)
      simp only [mapEntries, List.map_cons] at later ⊢
      rw [passes, passes]
      simp only [Walk.runSlot_map first]
      cases Walk.runSlot (f e.2) ⟨source, directives, unit, e.1⟩ budget session items place
        parent with
      | none => rfl
      | some v =>
          obtain ⟨session', slots, flow, position, next⟩ := v
          cases flow with
          | failed failure => rfl
          | stop => rfl
          | next =>
              cases position with
              | none => rfl
              | some place' => exact later session' slots place' (applied + 1)

/-- The expansions of the items still to come correspond. -/
theorem itemsFromEnd_map {registry : Registry α} {source : SourceText} {unit : Directives}
    {parent : Parent} (projects : ∀ e ∈ registry.entries, (f e.2).Projects π (g e.2))
    (remaining : Nat) (session : Session σ) (items : List Node) (applied : Nat) :
    itemsFromEnd (registry.map g) source unit parent budget remaining (session.map π) items
        applied =
      (itemsFromEnd (registry.map f) source unit parent budget remaining session items
        applied).map (Expanded.map π) := by
  induction remaining generalizing session items applied with
  | zero => rfl
  | succ remaining ih =>
      rw [itemsFromEnd, itemsFromEnd]
      simp only [Registry.getAsNamed_map, Registry.get_map, plan_map]
      generalize Directives.parse (items[items.length - (remaining + 1)]?.bind (·.doc)) =
        directives
      have members : ∀ e ∈ chosen (registry.getAsNamed directives.uses) (registry.get unit.uses),
          e ∈ registry.entries := by
        intro e member
        rcases List.mem_append.mp member with own | others
        · exact registry.mem_of_mem_select own
        · exact registry.mem_of_mem_select (List.mem_filter.mp others).1
      rw [passes_map _ fun e member => projects e (members e member)]
      cases passes source directives unit parent budget (mapEntries f _) session items
        (items.length - (remaining + 1)) applied with
      | none => rfl
      | some done =>
          obtain ⟨session', items', applied', ending⟩ := done
          cases ending with
          | none => exact ih session' items' applied'
          | some ending => rfl

/-- Expansions with two registries made of the same entries correspond. -/
theorem expand_map {registry : Registry α}
    (projects : ∀ e ∈ registry.entries, (f e.2).Projects π (g e.2)) (append : Bool)
    (session : Session σ) (u : SourceUnit) :
    expand (registry.map g) append budget (session.map π) u =
      (expand (registry.map f) append budget session u).map (Outcome.map π) := by
  rw [expand, expand, run, run, itemsFromEnd_map projects, Option.map_map, Option.map_map]
  congr 1
  funext e
  cases append <;> rfl

end Expansion

/-! ### Stateless handlers -/

/-- What a handler answers does not depend on its state. -/
def Handler.Stateless (h : Handler σ) : Prop :=
  ∀ ctx phase c s s', (h ctx phase c s).map (fun _ => ()) = (h ctx phase c s').map (fun _ => ())

/-- A handler without a state that answers as `h` does in the state `s`. -/
def Handler.at (h : Handler σ) (s : σ) : Handler Unit :=
  fun ctx phase c _ => (h ctx phase c s).map fun _ => ()

theorem Handler.Stateless.projects {h : Handler σ} (stateless : h.Stateless) (s : σ) :
    h.Projects (fun _ => ()) (h.at s) :=
  fun ctx phase c s' => stateless ctx phase c s s'

/-- All handlers of a registry are stateless. -/
def Registry.Stateless (r : Registry (Handler σ)) : Prop := ∀ e ∈ r.entries, e.2.Stateless

/-- What an expansion comes to does not depend on the state of stateless handlers. -/
theorem Expansion.expand_congr {registry : Registry (Handler σ)} (stateless : registry.Stateless)
    (append : Bool) (budget : Nat) (s s' : σ) (reports : List Report) (visits : Nat)
    (u : SourceUnit) :
    (expand registry append budget ⟨s, reports, visits⟩ u).map (Outcome.map fun _ => ()) =
      (expand registry append budget ⟨s', reports, visits⟩ u).map (Outcome.map fun _ => ()) := by
  have projects : ∀ e ∈ registry.entries, (id e.2).Projects (fun _ => ()) (e.2.at s) :=
    fun e member => (stateless e member).projects s
  have fixed : ∀ session, expand (registry.map (Handler.at · s)) append budget
      (Session.map (fun _ => ()) session) u =
        (expand (registry.map id) append budget session u).map (Outcome.map fun _ => ()) :=
    fun session => expand_map projects append session u
  rw [Registry.map_id] at fixed
  exact (fixed ⟨s, reports, visits⟩).symm.trans (fixed ⟨s', reports, visits⟩)

end Graft
