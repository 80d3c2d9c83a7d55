/-!
# Registries

A registry keeps values, such as handlers, by name, in the order of first registration.
Registering a name again exchanges its value and keeps its place. An index has the place of every
name. Names that are not registered are passed over by every look-up, so a directive meant for
another tool does no harm.

`get` answers in the order of registration, `getAsNamed` in the order of the request. Neither
answers a name twice.
-/

namespace Graft

/-- Named values in a fixed order. -/
structure Selection (α : Type) where
  entries : List (String × α)
deriving Repr

namespace Selection

variable {α : Type}

def names (s : Selection α) : List String := s.entries.map (·.1)

def size (s : Selection α) : Nat := s.entries.length

/-- Whether a name is among the selected ones. -/
def contains (s : Selection α) (name : String) : Bool :=
  s.entries.any fun e => e.1 = name

end Selection

/-- Values by name, in the order of first registration, with an index of the names. -/
structure Registry (α : Type) where
  entries : List (String × α)
  /-- The place of every name. -/
  index : List (String × Nat)
  /-- The index knows the first place of every name, and knows no other name. -/
  index_eq : ∀ name, index.lookup name = (entries.map (·.1)).idxOf? name
deriving Repr

namespace Registry

variable {α : Type}

def empty : Registry α := ⟨[], [], fun _ => rfl⟩

/-- The place of a name. -/
def position? (r : Registry α) (name : String) : Option Nat := r.index.lookup name

/-- The entries with the value at a place exchanged; its name stays. -/
def exchanged (i : Nat) (value : α) (entries : List (String × α)) : List (String × α) :=
  entries.modify i fun e => (e.1, value)

theorem names_exchanged (i : Nat) (value : α) (entries : List (String × α)) :
    (exchanged i value entries).map (·.1) = entries.map (·.1) := by
  apply List.ext_getElem?
  intro j
  rw [exchanged, List.getElem?_map, List.getElem?_map, List.getElem?_modify]
  cases entries[j]? with
  | none => rfl
  | some e => by_cases here : i = j <;> simp [here]

/-- The index of a registry with a new name at the end. -/
theorem lookup_added {entries : List (String × α)} {index : List (String × Nat)} {name : String}
    (value : α) (known : ∀ n, index.lookup n = (entries.map (·.1)).idxOf? n)
    (fresh : index.lookup name = none) (n : String) :
    ((name, entries.length) :: index).lookup n =
      ((entries ++ [(name, value)]).map (·.1)).idxOf? n := by
  have last : (entries.map (·.1) ++ [name]).idxOf? n =
      ((entries.map (·.1)).idxOf? n).or (if name == n then some entries.length else none) := by
    rw [List.idxOf?, List.findIdx?_append, List.length_map]
    cases same : name == n <;> simp [List.findIdx?_cons, same]
  rw [List.map_append, List.map_singleton, last, List.lookup_cons]
  cases same : n == name with
  | true =>
      obtain rfl := eq_of_beq same
      rw [← known, fresh]
      simp
  | false =>
      have other : (name == n) = false := by rw [Bool.beq_comm, same]
      simp [known, other]

/-- Register a value under a name. -/
def register (r : Registry α) (name : String) (value : α) : Registry α :=
  match found : r.position? name with
  | some i =>
    ⟨exchanged i value r.entries, r.index, fun n => by rw [names_exchanged, r.index_eq]⟩
  | none =>
    ⟨r.entries ++ [(name, value)], (name, r.entries.length) :: r.index,
      lookup_added value r.index_eq found⟩

/-- The registry of a list of registrations, made in order. -/
def ofList (entries : List (String × α)) : Registry α :=
  entries.foldl (fun r e => r.register e.1 e.2) empty

def size (r : Registry α) : Nat := r.entries.length

def contains (r : Registry α) (name : String) : Bool := (r.position? name).isSome

def names (r : Registry α) : List String := r.entries.map (·.1)

/-- The places of the registered names of a request, each once, in the order of the request. -/
def lookup (r : Registry α) (names : List String) : List Nat :=
  (names.filterMap r.position?).eraseDups

/-- The entries at the given places. -/
def select (r : Registry α) (places : List Nat) : Selection α :=
  ⟨places.filterMap fun i => r.entries[i]?⟩

/-- The registered entries among the names of a request, in the order of registration. -/
def get (r : Registry α) (names : List String) : Selection α :=
  r.select ((r.lookup names).mergeSort fun a b => decide (a ≤ b))

/-- The registered entries among the names of a request, in the order of the request. -/
def getAsNamed (r : Registry α) (names : List String) : Selection α :=
  r.select (r.lookup names)

def all (r : Registry α) : Selection α := r.select (List.range r.size)

@[simp] theorem entries_empty : (empty : Registry α).entries = [] := rfl

@[simp] theorem lookup_nil (r : Registry α) : r.lookup [] = [] := rfl

end Registry

end Graft
