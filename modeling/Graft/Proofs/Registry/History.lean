import Graft.Proofs.Registry.Order

/-!
# Registries and their registrations

A registry is looked up through its index, place by place. Seen from outside it is the account of
the registrations that made it: every name stands once, where it was registered first, and carries
the value that it was registered with last. The index has the place of every name and no other
name, so no look-up asks for a place that the registry does not have.

A request is answered from that account alone. The answer in the order of registration is the whole
registry without the entries that the request does not name, whatever the order of the request and
however often it repeats a name. The answer in the order of the request has each registered name
once, at its first mention. Both have the same entries.
-/

namespace Graft.Registry

variable {α : Type} {r : Registry α} {name : String} {e : String × α}

/-! ### One registration -/

theorem isSome_find?_iff (r : Registry α) (name : String) :
    (r.find? name).isSome = true ↔ name ∈ r.names := by
  rw [find?, List.find?_isSome, names, List.mem_map]
  simp only [decide_eq_true_eq]

theorem find?_eq_some_iff (distinct : r.Distinct) :
    r.find? name = some e ↔ e ∈ r.entries ∧ e.1 = name := by
  constructor
  · intro found
    exact ⟨List.mem_of_find?_eq_some found, by simpa using List.find?_some found⟩
  · rintro ⟨member, rfl⟩
    obtain ⟨i, there⟩ := List.mem_iff_getElem?.mp member
    have here : r.names[i]? = some e.1 := by rw [names, List.getElem?_map, there, Option.map_some]
    rw [← position?_bind, (position?_eq_some_iff distinct).mpr here, Option.bind_some, there]

/-- A registration changes what stands under its own name only. -/
theorem find?_register (r : Registry α) (name : String) (value : α) (other : String) :
    (r.register name value).find? other =
      if other = name then some (name, value) else r.find? other := by
  cases found : r.position? name with
  | none =>
      have fresh : r.find? name = none := by rw [← position?_bind, found, Option.bind_none]
      rw [find?, entries_register_of_none value found, List.find?_append]
      by_cases same : other = name
      · subst same
        rw [find?] at fresh
        simp [fresh]
      · have differs : name ≠ other := fun same' => same same'.symm
        simp [find?, same, differs]
  | some i =>
      have names_eq : (r.register name value).names = r.names := by
        rw [names_register, if_pos (List.mem_of_getElem? (names_of_position? found))]
      have places : (r.register name value).position? other = r.position? other := by
        rw [position?_eq, position?_eq, names_eq]
      rw [← position?_bind, places, entries_register_of_some value found]
      by_cases same : other = name
      · subst same
        obtain ⟨bound, -⟩ := List.getElem?_eq_some_iff.mp (names_of_position? found)
        rw [names, List.length_map] at bound
        rw [if_pos rfl, found, Option.bind_some, List.getElem?_set_self bound]
      · rw [if_neg same, ← position?_bind]
        cases elsewhere : r.position? other with
        | none => rfl
        | some j =>
            have apart : i ≠ j := by
              rintro rfl
              exact same (position?_inj elsewhere found)
            rw [Option.bind_some, Option.bind_some, List.getElem?_set_ne apart]

/-! ### All registrations -/

theorem ofList_concat (registrations : List (String × α)) (e : String × α) :
    ofList (registrations ++ [e]) = (ofList registrations).register e.1 e.2 := by
  rw [ofList, List.foldl_append]
  rfl

/-- Names stand in the order of first registration. -/
theorem names_ofList (registrations : List (String × α)) :
    (ofList registrations).names = (registrations.map (·.1)).eraseDups := by
  induction registrations using List.reverseRecOn with
  | nil => rfl
  | append_singleton registrations e ih =>
      rw [ofList_concat, names_register, ih, List.map_append, List.map_singleton,
        eraseDups_concat]
      simp only [List.mem_eraseDups]

/-- The last registration of a name counts. -/
theorem find?_ofList (registrations : List (String × α)) (name : String) :
    (ofList registrations).find? name = registrations.reverse.find? fun e => e.1 = name := by
  induction registrations using List.reverseRecOn with
  | nil => rfl
  | append_singleton registrations e ih =>
      rw [ofList_concat, find?_register, ih, List.reverse_concat, List.find?_cons]
      by_cases same : e.1 = name
      · subst same
        simp
      · simp [same, Ne.symm same]

/-- What a registry holds after registrations: their names, each once and in the order of first
registration, with the value registered last, and an index of the places of exactly these names. -/
structure Records (r : Registry α) (registrations : List (String × α)) : Prop where
  distinct : r.names.Nodup
  indexed : ∀ name i, r.index.lookup name = some i ↔ r.names[i]? = some name
  ordered : r.names = (registrations.map (·.1)).eraseDups
  latest : ∀ e ∈ r.entries, registrations.reverse.find? (fun e' => e'.1 = e.1) = some e

theorem records_ofList (registrations : List (String × α)) :
    (ofList registrations).Records registrations where
  distinct := distinct_ofList registrations
  indexed _ _ := position?_eq_some_iff (distinct_ofList registrations)
  ordered := names_ofList registrations
  latest e member := by
    rw [← find?_ofList]
    exact (find?_eq_some_iff (distinct_ofList registrations)).mpr ⟨member, rfl⟩

/-! ### Requests -/

variable {names : List String}

theorem mem_entries_get (distinct : r.Distinct) :
    e ∈ (r.get names).entries ↔ e ∈ r.entries ∧ e.1 ∈ names := by
  rw [entries_get distinct, List.mem_filter, decide_eq_true_eq]

theorem mem_entries_getAsNamed (distinct : r.Distinct) :
    e ∈ (r.getAsNamed names).entries ↔ e ∈ r.entries ∧ e.1 ∈ names := by
  rw [entries_getAsNamed, List.mem_filterMap]
  simp only [List.mem_eraseDups, find?_eq_some_iff distinct]
  constructor
  · rintro ⟨name, asked, member, rfl⟩
    exact ⟨member, asked⟩
  · rintro ⟨member, asked⟩
    exact ⟨e.1, asked, member, rfl⟩

/-- Only the set of the names in a request counts. -/
theorem get_congr (distinct : r.Distinct) {names' : List String}
    (same : ∀ name, name ∈ names' ↔ name ∈ names) : r.get names' = r.get names := by
  have entries : (r.get names').entries = (r.get names).entries := by
    rw [entries_get distinct, entries_get distinct]
    simp only [same]
  exact congrArg Selection.mk entries

theorem names_getAsNamed (r : Registry α) (names : List String) :
    (r.getAsNamed names).names = names.eraseDups.filter fun name => name ∈ r.names := by
  rw [Selection.names, entries_getAsNamed, List.map_filterMap, ← List.filterMap_eq_filter]
  apply List.filterMap_congr
  intro name _
  have registered := isSome_find?_iff r name
  cases found : r.find? name with
  | none =>
      have unknown : name ∉ r.names := by simpa [found] using registered
      simp [Option.guard, unknown]
  | some e =>
      have known : name ∈ r.names := by simpa [found] using registered
      have named : e.1 = name := by simpa using List.find?_some found
      simp [Option.guard, known, named]

theorem lt_size_of_mem_lookup {i : Nat} (asked : i ∈ r.lookup names) : i < r.size := by
  rw [lookup, List.mem_eraseDups] at asked
  obtain ⟨name, -, found⟩ := List.mem_filterMap.mp asked
  obtain ⟨bound, -⟩ := List.getElem?_eq_some_iff.mp (names_of_position? found)
  rwa [Registry.names, List.length_map] at bound

/-- How a registry answers a request. -/
structure Answers (r : Registry α) (names : List String) : Prop where
  /-- The answer in the order of registration is a part of all entries. -/
  restricted : (r.get names).entries = r.all.entries.filter fun e => e.1 ∈ names
  /-- Order and repetitions in the request do not count for it. -/
  unordered : ∀ names' : List String, (∀ name, name ∈ names' ↔ name ∈ names) →
    r.get names' = r.get names
  /-- The answer in the order of the request has the registered names, at their first mention. -/
  mentioned : (r.getAsNamed names).names = names.eraseDups.filter fun name => name ∈ r.names
  agree : ∀ e, e ∈ (r.getAsNamed names).entries ↔ e ∈ (r.get names).entries
  inRange : ∀ i ∈ r.lookup names, i < r.size

theorem answers (distinct : r.Distinct) (names : List String) : r.Answers names where
  restricted := by rw [entries_get distinct, entries_all]
  unordered _ same := get_congr distinct same
  mentioned := names_getAsNamed r names
  agree e := by rw [mem_entries_get distinct, mem_entries_getAsNamed distinct]
  inRange _ asked := lt_size_of_mem_lookup asked

/-- **A registry is the account of its registrations.** -/
theorem records_and_answers (registrations : List (String × α)) :
    (ofList registrations).Records registrations ∧
      (ofList registrations).all.entries = (ofList registrations).entries ∧
      ∀ names, (ofList registrations).Answers names :=
  ⟨records_ofList registrations, entries_all _, answers (distinct_ofList registrations)⟩

/-- A name that is registered again keeps its place and gets the new value. -/
example :
    let r := ofList [("log", 1), ("trace", 2), ("log", 3)]
    r.entries = [("log", 3), ("trace", 2)] ∧
      (r.getAsNamed ["trace", "none", "log", "trace"]).names = ["trace", "log"] := by
  decide

end Graft.Registry
