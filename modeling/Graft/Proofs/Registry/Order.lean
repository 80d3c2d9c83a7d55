import Graft.Proofs.Mentions
import Graft.Registry
import Mathlib.Data.List.Sort

/-!
# The order of look-ups in a registry

A registry is looked up by place, and the places that a request names are then put in the wanted
order. Both orders have a description without places. `entries_getAsNamed` says that a look-up in
the order of the request answers each name once, at its first mention, and passes over unknown
names. `entries_get` says that a look-up in the order of registration answers exactly the entries
that the request names, so that the order of the request and repetitions in it do not count.

The second needs the names of a registry to be distinct. `distinct_ofList` shows that every list
of registrations leads to such a registry.
-/

namespace Graft.Registry

variable {α : Type}

/-- The entry under a name. -/
def find? (r : Registry α) (name : String) : Option (String × α) :=
  r.entries.find? fun e => e.1 = name

/-- Every name is registered once. -/
def Distinct (r : Registry α) : Prop := r.names.Nodup

/-! ### Places -/

theorem position?_eq (r : Registry α) (name : String) :
    r.position? name = r.names.idxOf? name := r.index_eq name

theorem position?_eq_none_iff (r : Registry α) (name : String) :
    r.position? name = none ↔ name ∉ r.names := by
  rw [position?_eq, List.idxOf?_eq_none_iff]

theorem names_of_position? {r : Registry α} {name : String} {i : Nat}
    (found : r.position? name = some i) : r.names[i]? = some name := by
  rw [position?_eq, List.idxOf?_eq_some_iff] at found
  obtain ⟨bound, here, -⟩ := found
  rw [List.getElem?_eq_getElem bound, here]

theorem position?_inj {r : Registry α} {name name' : String} {i : Nat}
    (found : r.position? name = some i) (found' : r.position? name' = some i) :
    name = name' :=
  Option.some.inj ((names_of_position? found).symm.trans (names_of_position? found'))

theorem position?_eq_some_iff {r : Registry α} (distinct : r.Distinct) {name : String} {i : Nat} :
    r.position? name = some i ↔ r.names[i]? = some name := by
  refine ⟨names_of_position?, fun here => ?_⟩
  cases found : r.position? name with
  | none => exact absurd (List.mem_of_getElem? here) ((position?_eq_none_iff r name).mp found)
  | some j =>
      have there := names_of_position? found
      obtain ⟨bound, -⟩ := List.getElem?_eq_some_iff.mp here
      rw [(List.getElem?_inj bound distinct).mp (here.trans there.symm)]

/-- The entry at the place of a name is the entry under the name. -/
theorem position?_bind (r : Registry α) (name : String) :
    ((r.position? name).bind fun i => r.entries[i]?) = r.find? name := by
  have place : ∀ entries : List (String × α),
      (((entries.map (·.1)).idxOf? name).bind fun i => entries[i]?) =
        entries.find? fun e => e.1 = name := by
    intro entries
    induction entries with
    | nil => rfl
    | cons e entries ih =>
        rw [List.map_cons, List.idxOf?_cons, List.find?_cons, ← ih]
        by_cases same : e.1 = name
        · simp [same]
        · simp [same, Option.bind_map]
  rw [position?_eq]
  exact place r.entries

/-! ### Registration -/

/-- The value under a registered name is exchanged in its place. -/
theorem entries_register_of_some {r : Registry α} {name : String} {i : Nat} (value : α)
    (found : r.position? name = some i) :
    (r.register name value).entries = r.entries.set i (name, value) := by
  have here := names_of_position? found
  rw [names, List.getElem?_map] at here
  obtain ⟨e, there, rfl⟩ := Option.map_eq_some_iff.mp here
  have exchanges : (r.register e.1 value).entries = exchanged i value r.entries := by
    rw [register]
    split
    · next j found' => rw [Option.some.inj (found.symm.trans found')]
    · next missing => cases found.symm.trans missing
  rw [exchanges, exchanged, List.modify_eq_set_getElem?, there]
  rfl

/-- A new name goes behind the others. -/
theorem entries_register_of_none {r : Registry α} {name : String} (value : α)
    (missing : r.position? name = none) :
    (r.register name value).entries = r.entries ++ [(name, value)] := by
  rw [register]
  split
  · next found => cases missing.symm.trans found
  · rfl

theorem names_register (r : Registry α) (name : String) (value : α) :
    (r.register name value).names = if name ∈ r.names then r.names else r.names ++ [name] := by
  cases found : r.position? name with
  | none =>
      rw [if_neg ((position?_eq_none_iff r name).mp found), names,
        entries_register_of_none value found]
      simp [names]
  | some i =>
      have here := names_of_position? found
      obtain ⟨bound, there⟩ := List.getElem?_eq_some_iff.mp here
      rw [if_pos (List.mem_of_getElem? here), names, entries_register_of_some value found,
        List.map_set]
      change r.names.set i name = r.names
      rw [← there, List.set_getElem_self]

theorem Distinct.register {r : Registry α} (distinct : r.Distinct) (name : String) (value : α) :
    (r.register name value).Distinct := by
  rw [Distinct, names_register]
  split
  · exact distinct
  · next fresh =>
      refine List.nodup_append.mpr ⟨distinct, List.nodup_singleton name, ?_⟩
      intro a member b single
      rw [List.mem_singleton.mp single]
      exact fun same => fresh (same ▸ member)

/-- Registrations keep the names of a registry distinct. -/
theorem distinct_ofList (entries : List (String × α)) : (ofList entries).Distinct := by
  have registered : ∀ (es : List (String × α)) (r : Registry α), r.Distinct →
      (es.foldl (fun r e => r.register e.1 e.2) r).Distinct := by
    intro es
    induction es with
    | nil => exact fun r distinct => distinct
    | cons e es ih => exact fun r distinct => ih _ (distinct.register e.1 e.2)
  exact registered entries empty List.nodup_nil

/-- Everything that is registered was given in a registration. -/
theorem mem_of_mem_ofList {entries : List (String × α)} {e : String × α}
    (member : e ∈ (ofList entries).entries) : e ∈ entries := by
  suffices registered : ∀ (es : List (String × α)) (r : Registry α),
      e ∈ (es.foldl (fun r e => r.register e.1 e.2) r).entries → e ∈ r.entries ∨ e ∈ es by
    exact (registered entries empty member).resolve_left List.not_mem_nil
  intro es
  induction es with
  | nil => exact fun r given => Or.inl given
  | cons e' es ih =>
      intro r given
      rcases ih (r.register e'.1 e'.2) given with here | later
      · cases found : r.position? e'.1 with
        | none =>
            rw [entries_register_of_none e'.2 found, List.mem_append, List.mem_singleton] at here
            exact here.imp_right fun same => List.mem_cons.mpr (Or.inl same)
        | some i =>
            rw [entries_register_of_some e'.2 found] at here
            have kept := List.mem_or_eq_of_mem_set here
            exact kept.imp_right fun same => List.mem_cons.mpr (Or.inl same)
      · exact Or.inr (List.mem_cons_of_mem _ later)

/-! ### Look-ups -/

/-- A look-up in the order of the request answers every registered name of the request once, in
the order of first mention. -/
theorem entries_getAsNamed (r : Registry α) (names : List String) :
    (r.getAsNamed names).entries = names.eraseDups.filterMap r.find? := by
  have places := eraseDups_filterMap r.position? (fun _ _ _ => position?_inj) names
  change (r.lookup names).filterMap (fun i => r.entries[i]?) = _
  rw [lookup, places, List.filterMap_filterMap]
  apply List.filterMap_congr
  intro name _
  exact position?_bind r name

theorem filterMap_range {β : Type} (l : List β) :
    (List.range l.length).filterMap (fun i => l[i]?) = l := by
  induction l with
  | nil => rfl
  | cons a l ih =>
      have first : (a :: l)[0]? = some a := rfl
      rw [List.length_cons, List.range_succ_eq_map,
        List.filterMap_cons_some (f := fun i => (a :: l)[i]?) first, List.filterMap_map]
      exact congrArg (a :: ·) ih

/-- All entries are selected in the order of registration. -/
theorem entries_all (r : Registry α) : r.all.entries = r.entries := filterMap_range r.entries

/-- The places whose entries a request names, in ascending order. -/
def named (r : Registry α) (names : List String) : List Nat :=
  (List.range r.size).filter fun i => r.names[i]?.any fun name => name ∈ names

theorem mem_named {r : Registry α} {names : List String} {i : Nat} :
    i ∈ r.named names ↔ ∃ name ∈ names, r.names[i]? = some name := by
  have bound : ∀ name, r.names[i]? = some name → i < r.size := by
    intro name here
    obtain ⟨bound, -⟩ := List.getElem?_eq_some_iff.mp here
    simpa [Registry.names, size] using bound
  cases here : r.names[i]? with
  | none => simp [named, here]
  | some name => simpa [named, here] using fun _ => bound name here

/-- The sorted places of a request are the places whose entries it names. -/
theorem mergeSort_lookup {r : Registry α} (distinct : r.Distinct) (names : List String) :
    ((r.lookup names).mergeSort fun a b => decide (a ≤ b)) = r.named names := by
  have sorted : ((r.lookup names).mergeSort fun a b => decide (a ≤ b)).Pairwise
      fun a b => decide (a ≤ b) = true :=
    List.pairwise_mergeSort (by simpa using fun a b c => Nat.le_trans)
      (by simpa using Nat.le_total) (r.lookup names)
  have ascending : (r.named names).Pairwise (· < ·) := List.pairwise_lt_range.filter _
  have same : ((r.lookup names).mergeSort fun a b => decide (a ≤ b)).Perm (r.named names) := by
    refine (List.mergeSort_perm _ _).trans ?_
    have once : (r.lookup names).Nodup := nodup_eraseDups _
    rw [List.perm_ext_iff_of_nodup once (ascending.imp Nat.ne_of_lt)]
    intro i
    rw [mem_named, lookup, List.mem_eraseDups, List.mem_filterMap]
    simp only [position?_eq_some_iff distinct]
  exact same.eq_of_pairwise (fun a b _ _ => Nat.le_antisymm)
    (sorted.imp of_decide_eq_true) (ascending.imp Nat.le_of_lt)

/-- A look-up in the order of registration answers the entries that the request names. -/
theorem entries_get {r : Registry α} (distinct : r.Distinct) (names : List String) :
    (r.get names).entries = r.entries.filter fun e => e.1 ∈ names := by
  change ((r.lookup names).mergeSort _).filterMap (fun i => r.entries[i]?) = _
  rw [mergeSort_lookup distinct, named, List.filterMap_filter]
  conv_rhs => rw [← filterMap_range r.entries, List.filter_filterMap]
  apply List.filterMap_congr
  intro i _
  rw [Registry.names, List.getElem?_map]
  cases r.entries[i]? with
  | none => rfl
  | some e =>
      by_cases member : e.1 ∈ names <;> simp [member, Option.filter]

end Graft.Registry
