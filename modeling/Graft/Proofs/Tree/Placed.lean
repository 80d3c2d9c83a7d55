import Graft.Tree.Node

/-!
# Trees with places

In a tree that was read from a text every node has a place, the places of its children are inside
its own, and they stand apart, in order. `Node.Placed` says so of one tree and `Node.Row` of trees
next to each other, between two offsets. All nodes of a placed tree are inside the place of its
root (`Placed.inside`).

Handlers change trees and make nodes of their own, which have no place. `Node.Within` is what is
left of a place then: every node of the tree that has a place at all has one of the given places.
-/

namespace Graft

/-- The span `s` is a place inside `t`. -/
structure Span.Inside (s t : Span) : Prop where
  given : s.start < s.stop
  start : t.start ≤ s.start
  stop : s.stop ≤ t.stop

namespace Span.Inside

variable {s t r : Span}

theorem trans (inner : s.Inside t) (outer : t.Inside r) : s.Inside r :=
  ⟨inner.given, Nat.le_trans outer.start inner.start, Nat.le_trans inner.stop outer.stop⟩

theorem isEmpty (inside : s.Inside t) : s.isEmpty = false := by
  have given := inside.given
  simp only [Span.isEmpty, beq_eq_false_iff_ne]
  omega

end Span.Inside

namespace Node

/-- A tree in which every node has a place, strictly inside that of its parent and behind that of
the sibling before it. -/
inductive Placed : Node → Prop
  | intro {n : Node} (given : n.span.start < n.span.stop)
      (inside : ∀ c ∈ n.children, n.span.start < c.span.start ∧ c.span.stop < n.span.stop)
      (apart : n.children.Pairwise fun a b => a.span.stop ≤ b.span.start)
      (children : ∀ c ∈ n.children, Placed c) : Placed n

/-- Trees with places between two offsets, one after the other. -/
structure Row (lo : Nat) (ns : List Node) (hi : Nat) : Prop where
  placed : ∀ n ∈ ns, n.Placed
  inside : ∀ n ∈ ns, lo ≤ n.span.start ∧ n.span.stop ≤ hi
  apart : ns.Pairwise fun a b => a.span.stop ≤ b.span.start

variable {n : Node} {ns : List Node} {lo hi : Nat}

theorem Placed.given (placed : n.Placed) : n.span.start < n.span.stop := by
  cases placed
  assumption

/-- The documentation of a node is not in its place. -/
theorem Placed.withDoc (placed : n.Placed) (doc : Option String) :
    Placed { n with doc := doc } := by
  cases placed with
  | intro given inside apart children => exact ⟨given, inside, apart, children⟩

theorem placed_leaf {kind : Kind} {value : String} {span : Span}
    (given : span.start < span.stop) : Placed ⟨kind, value, span, none, []⟩ :=
  ⟨given, by simp, List.Pairwise.nil, by simp⟩

namespace Row

theorem nil (lo hi : Nat) : Row lo [] hi := ⟨by simp, by simp, List.Pairwise.nil⟩

theorem mono (row : Row lo ns hi) {lo' hi' : Nat} (start : lo' ≤ lo) (stop : hi ≤ hi') :
    Row lo' ns hi' := by
  refine ⟨row.placed, fun n member => ?_, row.apart⟩
  have inside := row.inside n member
  exact ⟨Nat.le_trans start inside.1, Nat.le_trans inside.2 stop⟩

/-- A tree behind a row makes the row longer. -/
theorem snoc (row : Row lo ns hi) {hi' : Nat} (bounds : lo ≤ hi) (placed : n.Placed)
    (start : hi ≤ n.span.start) (stop : n.span.stop ≤ hi') : Row lo (ns ++ [n]) hi' := by
  have longer : hi ≤ hi' := Nat.le_trans start (Nat.le_trans (Nat.le_of_lt placed.given) stop)
  refine ⟨?_, ?_, ?_⟩
  · exact List.forall_mem_append.mpr ⟨row.placed, by simpa using placed⟩
  · refine List.forall_mem_append.mpr ⟨(row.mono (Nat.le_refl lo) longer).inside, ?_⟩
    simpa using ⟨Nat.le_trans bounds start, stop⟩
  · refine List.pairwise_append.mpr ⟨row.apart, List.pairwise_singleton _ _, ?_⟩
    intro m member n' last
    rw [List.mem_singleton.mp last]
    exact Nat.le_trans (row.inside m member).2 start

/-- A row becomes a tree when something stands before it and behind it. -/
theorem list (row : Row lo ns hi) {start stop : Nat} (before : start < lo) (behind : hi < stop)
    (given : start < stop) (kind : Kind) (value : String) (doc : Option String) :
    Placed ⟨kind, value, ⟨start, stop⟩, doc, ns⟩ := by
  refine ⟨given, fun c member => ?_, row.apart, row.placed⟩
  have inside := row.inside c member
  exact ⟨Nat.lt_of_lt_of_le before inside.1, Nat.lt_of_le_of_lt inside.2 behind⟩

end Row

/-! ### All nodes of a tree -/

theorem mem_preorderAll {m : Node} :
    m ∈ preorderAll ns ↔ ∃ n ∈ ns, m ∈ n.preorder := by
  induction ns with
  | nil => simp [preorderAll]
  | cons n ns ih => simp [preorderAll, ih]

theorem mem_preorder_self (n : Node) : n ∈ n.preorder := by
  rw [preorder_eq]
  exact List.mem_cons_self

/-- What holds of every node of a tree holds of its root and below every child. -/
theorem forall_mem_preorder {p : Node → Prop} :
    (∀ m ∈ n.preorder, p m) ↔ p n ∧ ∀ c ∈ n.children, ∀ m ∈ c.preorder, p m := by
  simp only [preorder_eq n, List.forall_mem_cons, mem_preorderAll]
  refine and_congr_right fun _ => ?_
  constructor
  · exact fun all c child m here => all m ⟨c, child, here⟩
  · exact fun all m ⟨c, child, here⟩ => all c child m here

/-- Every node of a placed tree has a place inside that of the root. -/
theorem Placed.inside (placed : n.Placed) : ∀ m ∈ n.preorder, m.span.Inside n.span := by
  induction placed with
  | intro given inside apart children ih =>
      intro m member
      rw [preorder_eq] at member
      rcases List.mem_cons.mp member with rfl | below
      · exact ⟨given, Nat.le_refl _, Nat.le_refl _⟩
      · obtain ⟨c, child, here⟩ := mem_preorderAll.mp below
        obtain ⟨start, stop⟩ := inside c child
        exact (ih c child m here).trans
          ⟨(children c child).given, Nat.le_of_lt start, Nat.le_of_lt stop⟩

/-- Every node in a row of placed trees has a place. -/
theorem Row.given (row : Row lo ns hi) : ∀ m ∈ preorderAll ns, m.span.start < m.span.stop := by
  intro m member
  obtain ⟨n, tree, here⟩ := mem_preorderAll.mp member
  exact ((row.placed n tree).inside m here).given

/-- If in each tree of a row every node starts before those that come after it, so it is in the
whole row. -/
theorem Row.starts_of_each (row : Row lo ns hi)
    (each : ∀ n ∈ ns, n.preorder.Pairwise fun a b => a.span.start < b.span.start) :
    (preorderAll ns).Pairwise fun a b => a.span.start < b.span.start := by
  obtain ⟨placed, -, apart⟩ := row
  induction ns with
  | nil => exact List.Pairwise.nil
  | cons n ns ih =>
      rw [List.forall_mem_cons] at placed each
      obtain ⟨behind, apart⟩ := List.pairwise_cons.mp apart
      rw [preorderAll]
      refine List.pairwise_append.mpr ⟨each.1, ih each.2 placed.2 apart, ?_⟩
      intro a here b later
      obtain ⟨n', member, there⟩ := mem_preorderAll.mp later
      have first := placed.1.inside a here
      have second := (placed.2 n' member).inside b there
      calc a.span.start
        _ < a.span.stop := first.given
        _ ≤ n.span.stop := first.stop
        _ ≤ n'.span.start := behind n' member
        _ ≤ b.span.start := second.start

/-- In a placed tree every node starts before the nodes that come after it. -/
theorem Placed.preorder_starts (placed : n.Placed) :
    n.preorder.Pairwise fun a b => a.span.start < b.span.start := by
  induction placed with
  | @intro n given inside apart children ih =>
      have row : Row n.span.start n.children n.span.stop :=
        ⟨children, fun c child => (inside c child).imp Nat.le_of_lt Nat.le_of_lt, apart⟩
      rw [preorder_eq]
      refine List.pairwise_cons.mpr ⟨fun m below => ?_, row.starts_of_each ih⟩
      obtain ⟨c, child, here⟩ := mem_preorderAll.mp below
      exact Nat.lt_of_lt_of_le (inside c child).1 ((children c child).inside m here).start

/-- In a row of placed trees every node starts before the nodes that come after it. -/
theorem Row.starts (row : Row lo ns hi) :
    (preorderAll ns).Pairwise fun a b => a.span.start < b.span.start :=
  row.starts_of_each fun n member => (row.placed n member).preorder_starts

/-- Every node of the tree has no place, or one with the property. -/
def Within (P : Span → Prop) (n : Node) : Prop :=
  ∀ m ∈ n.preorder, m.span.isEmpty = true ∨ P m.span

variable {P Q : Span → Prop}

theorem within_iff :
    n.Within P ↔ (n.span.isEmpty = true ∨ P n.span) ∧ ∀ c ∈ n.children, c.Within P :=
  forall_mem_preorder

theorem Within.mono (within : n.Within P) (weaker : ∀ s, P s → Q s) : n.Within Q :=
  fun m member => (within m member).imp_right (weaker m.span)

/-- Other children with the property can be put in the place of those of a node. -/
theorem Within.withChildren (within : n.Within P) (children : ∀ c ∈ ns, c.Within P) :
    Within P { n with children := ns } :=
  within_iff.mpr ⟨(within_iff.mp within).1, children⟩

/-- The place of the node, or else the place that is passed on to it. -/
theorem Within.orElse (within : n.Within P) {fallback : Span} (given : P fallback) :
    P (n.span.orElse fallback) := by
  rw [Span.orElse]
  split
  · exact given
  · next nonempty => exact (within_iff.mp within).1.resolve_left nonempty

theorem Placed.within (placed : n.Placed) : n.Within (Span.Inside · n.span) :=
  fun m member => Or.inr (placed.inside m member)

end Node

end Graft
