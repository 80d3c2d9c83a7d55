import Graft.Tree.Span

/-!
# Nodes

A unit is a tree of nodes. A node has a kind, a value (the head symbol of a list, the text of a
leaf), a span, an optional documentation text and its children. Every node owns its children, so
a change to one node is a change to no other.

`Node.preorder` lists a subtree by recursion, the node before its children. `Node.descendants`
produces the same nodes from an explicit stack, one at a time. `Descent.pending` reads that stack
from the top down, and is all that proofs about a descent have to look at.
-/

namespace Graft

/-- What a node is in its unit. -/
inductive Kind where
  /-- The root of a unit. -/
  | unit
  /-- A top-level reference to another unit. -/
  | reference
  /-- A top-level declaration. -/
  | decl
  /-- A statement inside a declaration. -/
  | stmt
  /-- A nested expression. -/
  | expr
  /-- A bare identifier. -/
  | ident
  /-- A literal text. -/
  | literal
deriving DecidableEq, Repr, Inhabited

def Kind.name : Kind → String
  | .unit => "unit"
  | .reference => "import"
  | .decl => "decl"
  | .stmt => "stmt"
  | .expr => "expr"
  | .ident => "ident"
  | .literal => "literal"

/-- Leaves have no children in a unit that was read from a text. -/
def Kind.isLeaf : Kind → Bool
  | .ident | .literal => true
  | _ => false

/-- A node and the subtree it owns. -/
structure Node where
  kind : Kind
  value : String
  span : Span
  doc : Option String
  children : List Node
deriving Repr, Inhabited

namespace Node

/-- A list node without a place in a text. -/
def list (kind : Kind) (head : String) (children : List Node) : Node :=
  ⟨kind, head, .detached, none, children⟩

def ident (name : String) : Node := ⟨.ident, name, .detached, none, []⟩

def literal (text : String) : Node := ⟨.literal, text, .detached, none, []⟩

/-- What stands for a root while the root is taken out for a walk. -/
def placeholder : Node := ident ""

/-! ### Equality -/

mutual

/-- Equality of nodes, spans and documentation included. -/
def same : Node → Node → Bool
  | ⟨k, v, s, d, cs⟩, ⟨k', v', s', d', cs'⟩ =>
    decide (k = k') && decide (v = v') && decide (s = s') && decide (d = d') && sameAll cs cs'

/-- Equality of lists of nodes. -/
def sameAll : List Node → List Node → Bool
  | [], [] => true
  | n :: ns, m :: ms => same n m && sameAll ns ms
  | _, _ => false

end

mutual

theorem same_iff : (n m : Node) → (same n m = true ↔ n = m)
  | ⟨k, v, s, d, cs⟩, ⟨k', v', s', d', cs'⟩ => by
    simp [same, sameAll_iff cs cs', and_assoc]

theorem sameAll_iff : (ns ms : List Node) → (sameAll ns ms = true ↔ ns = ms)
  | [], [] => by simp [sameAll]
  | [], _ :: _ => by simp [sameAll]
  | _ :: _, [] => by simp [sameAll]
  | n :: ns, m :: ms => by simp [sameAll, same_iff n m, sameAll_iff ns ms]

end

instance : DecidableEq Node := fun n m => decidable_of_iff _ (same_iff n m)

/-! ### Views of a subtree -/

/-- The name of a declaration: the value of its first identifier child. -/
def name? (n : Node) : Option String :=
  (n.children.find? fun c => c.kind = .ident).map (·.value)

mutual

/-- The number of nodes in a subtree, its top node included. -/
def size : Node → Nat
  | ⟨_, _, _, _, children⟩ => 1 + sizeAll children

def sizeAll : List Node → Nat
  | [] => 0
  | n :: ns => n.size + sizeAll ns

end

mutual

/-- The nodes of a subtree, every node before its children. -/
def preorder : Node → List Node
  | ⟨k, v, s, d, children⟩ => ⟨k, v, s, d, children⟩ :: preorderAll children

/-- The nodes of a list of subtrees, from left to right. -/
def preorderAll : List Node → List Node
  | [] => []
  | n :: ns => n.preorder ++ preorderAll ns

end

theorem size_eq (n : Node) : n.size = 1 + sizeAll n.children := by
  cases n; simp [size]

theorem size_pos (n : Node) : 0 < n.size := by
  rw [size_eq]; omega

@[simp] theorem sizeAll_nil : sizeAll [] = 0 := rfl

@[simp] theorem sizeAll_cons (n : Node) (ns : List Node) :
    sizeAll (n :: ns) = n.size + sizeAll ns := by simp [sizeAll]

@[simp] theorem sizeAll_append (ns ms : List Node) :
    sizeAll (ns ++ ms) = sizeAll ns + sizeAll ms := by
  induction ns with
  | nil => simp
  | cons n ns ih => simp [ih, Nat.add_assoc]

theorem preorder_eq (n : Node) : n.preorder = n :: preorderAll n.children := by
  cases n; simp [preorder]

end Node

/-- Nodes whose subtrees are still to be listed, on a stack with its top at the end. -/
structure Descent where
  stack : Array Node

namespace Descent

/-- A descent through one subtree. -/
def of (n : Node) : Descent := ⟨#[n]⟩

/-- Take the top node off the stack and push its children, the last one first. -/
def next (d : Descent) : Option (Node × Descent) :=
  d.stack.back?.map fun n => (n, ⟨d.stack.pop ++ n.children.reverse⟩)

/-- The nodes on the stack, from the top down. -/
def pending (d : Descent) : List Node := d.stack.toList.reverse

@[simp] theorem pending_of (n : Node) : (of n).pending = [n] := rfl

theorem next_eq_none_iff {d : Descent} : d.next = none ↔ d.pending = [] := by
  simp [next, pending]

theorem next_of_pending {d : Descent} {n : Node} {rest : List Node} (h : d.pending = n :: rest) :
    ∃ d', d.next = some (n, d') ∧ d'.pending = n.children ++ rest := by
  rw [pending, List.reverse_eq_cons_iff] at h
  have stack : d.stack = (rest.reverse ++ [n]).toArray := by rw [← h]
  refine ⟨⟨rest.reverse.toArray ++ n.children.reverse⟩, ?_, ?_⟩
  · simp [next, stack]
  · simp [pending]

theorem pending_of_next {d d' : Descent} {n : Node} (h : d.next = some (n, d')) :
    ∃ rest, d.pending = n :: rest ∧ d'.pending = n.children ++ rest := by
  cases top : d.pending with
  | nil => simp [next_eq_none_iff.mpr top] at h
  | cons m rest =>
    obtain ⟨d'', step, pushed⟩ := next_of_pending top
    cases step.symm.trans h
    exact ⟨rest, rfl, pushed⟩

theorem sizeAll_next {d d' : Descent} {n : Node} (h : d.next = some (n, d')) :
    Node.sizeAll d'.pending < Node.sizeAll d.pending := by
  obtain ⟨rest, top, pushed⟩ := pending_of_next h
  rw [top, pushed, Node.sizeAll_append, Node.sizeAll_cons, Node.size_eq n]
  omega

/-- All nodes that a descent produces, in order. -/
def toList (d : Descent) : List Node :=
  match h : d.next with
  | none => []
  | some (n, d') =>
    have := sizeAll_next h
    n :: d'.toList
termination_by Node.sizeAll d.pending

theorem toList_of_ended {d : Descent} (h : d.next = none) : d.toList = [] := by
  rw [toList]
  split
  · rfl
  · next step => cases h.symm.trans step

theorem toList_of_next {d d' : Descent} {n : Node} (h : d.next = some (n, d')) :
    d.toList = n :: d'.toList := by
  rw [toList]
  split
  · next ended => cases ended.symm.trans h
  · next step => cases h.symm.trans step; rfl

end Descent

/-- The nodes of a subtree, taken one at a time from a stack. -/
def Node.descendants (n : Node) : List Node := (Descent.of n).toList

end Graft
