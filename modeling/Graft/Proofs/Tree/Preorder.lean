import Graft.Tree.Node

/-!
# Listing a tree

`Node.descendants` takes the nodes of a tree off a stack on which it leaves their children. What
it has still to list is the concatenation of the listings of the trees on the stack, from the top
down. A step takes the first node of that concatenation away and leaves the rest
(`Descent.preorderAll_pending_of_next`). So the calls for the next node are answered as
`Node.preorder` lists the tree by recursion, one by one, and with nothing after the last node
(`Descent.next_after`).

A tree may hold equal nodes at different places, so a place in a tree is told by its address, the
indices of the children on the way down to it. `Node.addresses` goes through the addresses of a
tree in the order of the listing. They come in lexicographic order, so each of them comes once, and
they are all addresses at which a node stands.
-/

namespace Graft

namespace Node

/-! ### The recursive listing -/

theorem preorderAll_append (ns ms : List Node) :
    preorderAll (ns ++ ms) = preorderAll ns ++ preorderAll ms := by
  induction ns with
  | nil => rfl
  | cons n ns ih => rw [List.cons_append, preorderAll, preorderAll, ih, List.append_assoc]

mutual

theorem length_preorder : (n : Node) → n.preorder.length = n.size
  | ⟨kind, value, span, doc, children⟩ => by
    rw [preorder, size, List.length_cons, length_preorderAll children, Nat.add_comm]

theorem length_preorderAll : (ns : List Node) → (preorderAll ns).length = sizeAll ns
  | [] => rfl
  | n :: ns => by
    rw [preorderAll, sizeAll, List.length_append, length_preorder n, length_preorderAll ns]

end

/-! ### Addresses -/

/-- The node at an address: every index leads from a node to one of its children. -/
def at? : Node → List Nat → Option Node
  | n, [] => some n
  | n, i :: address => n.children[i]?.bind fun child => child.at? address

mutual

/-- The addresses of the nodes of a tree, every node before its children. -/
def addresses : Node → List (List Nat)
  | ⟨_, _, _, _, children⟩ => [] :: addressesFrom 0 children

/-- The addresses of the nodes of trees that are the children of one node from an index on. -/
def addressesFrom : Nat → List Node → List (List Nat)
  | _, [] => []
  | i, n :: ns => n.addresses.map (i :: ·) ++ addressesFrom (i + 1) ns

end

theorem addresses_eq (n : Node) : n.addresses = [] :: addressesFrom 0 n.children := by
  cases n
  rw [addresses]

theorem mem_addressesFrom {i : Nat} {ns : List Node} {address : List Nat} :
    address ∈ addressesFrom i ns ↔
      ∃ j below n, address = (i + j) :: below ∧ ns[j]? = some n ∧ below ∈ n.addresses := by
  induction ns generalizing i with
  | nil => simp [addressesFrom]
  | cons n ns ih =>
      rw [addressesFrom, List.mem_append, List.mem_map, ih]
      constructor
      · rintro (⟨below, member, rfl⟩ | ⟨j, below, m, rfl, here, member⟩)
        · exact ⟨0, below, n, rfl, rfl, member⟩
        · exact ⟨j + 1, below, m, by rw [Nat.add_right_comm, Nat.add_assoc], here, member⟩
      · rintro ⟨_ | j, below, m, rfl, here, member⟩
        · cases here
          exact Or.inl ⟨below, member, rfl⟩
        · exact Or.inr ⟨j, below, m, by rw [Nat.add_right_comm, Nat.add_assoc], here, member⟩

theorem mem_addresses_cons {n : Node} {i : Nat} {below : List Nat} :
    i :: below ∈ n.addresses ↔ ∃ child, n.children[i]? = some child ∧ below ∈ child.addresses := by
  rw [addresses_eq, List.mem_cons, mem_addressesFrom]
  constructor
  · rintro (root | ⟨j, below', child, same, here, member⟩)
    · cases root
    · rw [Nat.zero_add] at same
      cases same
      exact ⟨child, here, member⟩
  · rintro ⟨child, here, member⟩
    exact Or.inr ⟨i, below, child, by rw [Nat.zero_add], here, member⟩

/-- The addresses of a tree are those at which a node stands. The induction is on the address, since
every index goes down to one child. -/
theorem mem_addresses {n : Node} {address : List Nat} :
    address ∈ n.addresses ↔ (n.at? address).isSome := by
  induction address generalizing n with
  | nil => simp [addresses_eq, at?]
  | cons i below ih =>
      rw [mem_addresses_cons, at?]
      cases n.children[i]? with
      | none => simp
      | some child => simp [ih]

mutual

/-- The addresses of a tree stand in lexicographic order: those of a child begin with its index. -/
theorem ascending_addresses : (n : Node) → n.addresses.Pairwise (List.Lex (· < ·))
  | ⟨kind, value, span, doc, children⟩ => by
    rw [addresses]
    refine List.pairwise_cons.mpr ⟨fun address member => ?_, ascending_addressesFrom 0 children⟩
    obtain ⟨j, below, n, rfl, -, -⟩ := mem_addressesFrom.mp member
    exact .nil

theorem ascending_addressesFrom :
    (i : Nat) → (ns : List Node) → (addressesFrom i ns).Pairwise (List.Lex (· < ·))
  | _, [] => List.Pairwise.nil
  | i, n :: ns => by
    rw [addressesFrom]
    refine List.pairwise_append.mpr ⟨?_, ascending_addressesFrom (i + 1) ns, ?_⟩
    · exact (ascending_addresses n).map _ fun _ _ before => .cons before
    · intro first here second later
      obtain ⟨below, -, rfl⟩ := List.mem_map.mp here
      obtain ⟨j, below', m, rfl, -, -⟩ := mem_addressesFrom.mp later
      exact .rel (by omega)

end

theorem nodup_addresses (n : Node) : n.addresses.Nodup := by
  refine n.ascending_addresses.imp fun before => ?_
  rintro rfl
  exact List.lex_irrefl Nat.lt_irrefl _ before

mutual

/-- The listing shows the nodes that stand at the addresses. -/
theorem map_at?_addresses : (n : Node) → n.addresses.map n.at? = n.preorder.map some
  | ⟨kind, value, span, doc, children⟩ => by
    rw [addresses, preorder, List.map_cons, List.map_cons]
    congr 1
    exact map_at?_addressesFrom children ⟨kind, value, span, doc, children⟩ [] rfl

theorem map_at?_addressesFrom : (ns : List Node) → (n : Node) → (before : List Node) →
    n.children = before ++ ns →
      (addressesFrom before.length ns).map n.at? = (preorderAll ns).map some
  | [], _, _, _ => rfl
  | m :: ns, n, before, split => by
    have here : n.children[before.length]? = some m := by simp [split]
    have inside : (n.at? ∘ (before.length :: ·)) = m.at? := by
      funext address
      rw [Function.comp_apply, at?, here, Option.bind_some]
    have others := map_at?_addressesFrom ns n (before ++ [m]) (by simp [split])
    rw [List.length_append, List.length_singleton] at others
    rw [addressesFrom, preorderAll, List.map_append, List.map_append, List.map_map, inside,
      map_at?_addresses m, others]

end

end Node

/-! ### The listing from a stack -/

namespace Descent

open Node (preorderAll preorderAll_append)

variable {d d' : Descent} {n : Node}

/-- A step lists the first node of what is pending and leaves the rest to be listed. -/
theorem preorderAll_pending_of_next (step : d.next = some (n, d')) :
    preorderAll d.pending = n :: preorderAll d'.pending := by
  obtain ⟨rest, top, pushed⟩ := pending_of_next step
  rw [top, pushed, preorderAll, preorderAll_append, Node.preorder_eq, List.cons_append]

/-- What is pending is listed tree by tree, from the top of the stack down. -/
theorem toList_eq (d : Descent) : d.toList = preorderAll d.pending := by
  induction d using toList.induct with
  | case1 d ended => rw [toList_of_ended ended, next_eq_none_iff.mp ended, preorderAll]
  | case2 d n d' step shorter ih =>
      rw [toList_of_next step, ih, preorderAll_pending_of_next step]

/-- The descent after some calls for the next node. Once there is none, a call changes nothing. -/
def after : Descent → Nat → Descent
  | d, 0 => d
  | d, k + 1 =>
    match d.next with
    | none => d
    | some (_, d') => d'.after k

theorem after_of_ended (ended : d.next = none) (k : Nat) : d.after k = d := by
  cases k with
  | zero => rfl
  | succ k => simp only [after, ended]

theorem after_of_next (step : d.next = some (n, d')) (k : Nat) :
    d.after (k + 1) = d'.after k := by
  simp only [after, step]

/-- The answers to the calls for the next node, one by one, are the nodes of the pending trees, and
nothing from then on. -/
theorem next_after (d : Descent) (k : Nat) :
    (d.after k).next.map Prod.fst = (preorderAll d.pending)[k]? := by
  induction k generalizing d with
  | zero =>
      cases step : d.next with
      | none => rw [after, step, next_eq_none_iff.mp step]; rfl
      | some answer => rw [after, step, preorderAll_pending_of_next step]; rfl
  | succ k ih =>
      cases step : d.next with
      | none => rw [after_of_ended step, step, next_eq_none_iff.mp step]; rfl
      | some answer =>
          rw [after_of_next step, ih, preorderAll_pending_of_next step, List.getElem?_cons_succ]

end Descent

namespace Node

theorem preorderAll_pending_of (n : Node) : preorderAll (Descent.of n).pending = n.preorder := by
  rw [Descent.pending_of, preorderAll, preorderAll, List.append_nil]

theorem descendants_eq_preorder (n : Node) : n.descendants = n.preorder := by
  rw [descendants, Descent.toList_eq, preorderAll_pending_of]

/-- **The listing of a tree.** A descent through a tree answers the calls for the next node with the
nodes of the recursive listing, one by one, and with nothing from as many calls on as the tree has
nodes. So the listing ends. It shows the nodes at all addresses of the tree, each once, in the
lexicographic order of the addresses. -/
theorem descends_in_preorder (n : Node) :
    n.descendants = n.preorder ∧
    (∀ k, ((Descent.of n).after k).next.map Prod.fst = n.preorder[k]?) ∧
    (∀ k, ((Descent.of n).after k).next = none ↔ n.size ≤ k) ∧
    n.descendants.length = n.size ∧
    ∃ addresses : List (List Nat),
      addresses.Pairwise (List.Lex (· < ·)) ∧ addresses.Nodup ∧
      (∀ address, address ∈ addresses ↔ (n.at? address).isSome) ∧
      n.descendants.map some = addresses.map n.at? := by
  have answers : ∀ k, ((Descent.of n).after k).next.map Prod.fst = n.preorder[k]? := by
    intro k
    rw [Descent.next_after, preorderAll_pending_of]
  rw [descendants_eq_preorder]
  refine ⟨rfl, answers, fun k => ?_, n.length_preorder, n.addresses, n.ascending_addresses,
    n.nodup_addresses, fun address => mem_addresses, n.map_at?_addresses.symm⟩
  rw [← Option.map_eq_none_iff, answers, List.getElem?_eq_none_iff, length_preorder]

example :
    let tree := list .decl "fn" [list .stmt "a" [ident "b"], ident "c"]
    tree.preorder.map (·.value) = ["fn", "a", "b", "c"] ∧
      tree.addresses = [[], [0], [0, 0], [1]] := by
  decide

end Node

end Graft
