import Graft.Tree.Node

/-!
# Trees without places

`Node.bare` forgets where the nodes of a tree stand in their text. Two trees that are equal after
that have the same kinds, values, documentation and children everywhere. `Node.nesting` counts the
lists that stand inside one another.
-/

namespace Graft.Node

mutual

/-- The tree with all spans detached. -/
def bare : Node → Node
  | ⟨kind, value, _, doc, children⟩ => ⟨kind, value, .detached, doc, bareAll children⟩

/-- The trees with all spans detached. -/
def bareAll : List Node → List Node
  | [] => []
  | n :: ns => bare n :: bareAll ns

end

mutual

/-- The number of lists that stand inside one another at the deepest place of a tree. -/
def nesting : Node → Nat
  | ⟨kind, _, _, _, children⟩ => if kind.isLeaf then 0 else nestingAll children + 1

/-- The greatest nesting among some trees. -/
def nestingAll : List Node → Nat
  | [] => 0
  | n :: ns => max (nesting n) (nestingAll ns)

end

theorem bareAll_eq_map (ns : List Node) : bareAll ns = ns.map bare := by
  induction ns with
  | nil => rfl
  | cons n ns ih => rw [bareAll, ih, List.map_cons]

@[simp] theorem bare_mk (kind : Kind) (value : String) (span : Span) (doc : Option String)
    (children : List Node) :
    bare ⟨kind, value, span, doc, children⟩ =
      ⟨kind, value, .detached, doc, children.map bare⟩ := by
  rw [bare, bareAll_eq_map]

mutual

theorem bare_bare : (n : Node) → n.bare.bare = n.bare
  | ⟨kind, value, span, doc, children⟩ => by
    rw [bare, bare, bareAll_bareAll children]

theorem bareAll_bareAll : (ns : List Node) → bareAll (bareAll ns) = bareAll ns
  | [] => rfl
  | n :: ns => by
    rw [bareAll, bareAll, bare_bare n, bareAll_bareAll ns]

end

@[simp] theorem kind_bare (n : Node) : n.bare.kind = n.kind := by
  cases n
  rw [bare]

@[simp] theorem value_bare (n : Node) : n.bare.value = n.value := by
  cases n
  rw [bare]

@[simp] theorem doc_bare (n : Node) : n.bare.doc = n.doc := by
  cases n
  rw [bare]

theorem nesting_of_isLeaf {n : Node} (leaf : n.kind.isLeaf = true) : n.nesting = 0 := by
  cases n
  rw [nesting, if_pos leaf]

theorem nesting_of_not_isLeaf {n : Node} (inner : n.kind.isLeaf = false) :
    n.nesting = nestingAll n.children + 1 := by
  cases n
  rw [nesting, if_neg (by simpa using inner)]

theorem nesting_withDoc (n : Node) (doc : Option String) :
    nesting { n with doc := doc } = n.nesting := by
  cases n
  rw [nesting, nesting]

theorem nestingAll_le_iff {ns : List Node} {bound : Nat} :
    nestingAll ns ≤ bound ↔ ∀ n ∈ ns, n.nesting ≤ bound := by
  induction ns with
  | nil => simp [nestingAll]
  | cons n ns ih => rw [nestingAll, Nat.max_le, ih, List.forall_mem_cons]

end Graft.Node
