import Graft.Tree.Node

/-!
# Cursors

A cursor is bound to one node of a child list for one visit of a handler. It gives access to the
node and its siblings, and every change to the list goes through it: the node can be exchanged,
changed in place or deleted, and nodes can be inserted on either side. The cursor keeps the index
of the bound node, or of the place the node left when it was deleted.

The root of a walk stands in no child list. A cursor on it has no parent, and refuses to delete
the node and to insert siblings.

An operation answers, and leaves a cursor also when it refuses: the one it was given. `Cursor.apply`
runs a list of edits in order, the refused ones included.
-/

namespace Graft

/-- What is known of the node that owns a child list. -/
structure Parent where
  kind : Kind
  value : String
  span : Span
deriving DecidableEq, Repr

def Parent.of (n : Node) : Parent := ⟨n.kind, n.value, n.span⟩

/-- The operations that a cursor can refuse. -/
inductive CursorOp where
  | replace
  | delete
  | insertBefore
  | insertAfter
deriving DecidableEq, Repr

def CursorOp.name : CursorOp → String
  | .replace => "replace"
  | .delete => "delete"
  | .insertBefore => "insert before"
  | .insertAfter => "insert after"

/-- Why an operation was refused. -/
inductive CursorFault where
  /-- The bound node is in no child list. -/
  | notInList (op : CursorOp)
  /-- The bound node was deleted before. -/
  | deleted (op : CursorOp)
deriving DecidableEq, Repr

def CursorFault.message : CursorFault → String
  | .notInList op => op.name ++ " requires a node inside a child list"
  | .deleted op => "cannot " ++ op.name ++ ": the current node was deleted"

/-- A binding to one node of a child list. -/
structure Cursor where
  /-- The child list; for the root of a walk, the root alone. -/
  slots : List Node
  /-- The owner of the list; nothing for the root of a walk. -/
  parent : Option Parent
  /-- The place of the bound node, or the place it left. -/
  place : Nat
  removed : Bool
deriving Repr

namespace Cursor

/-- A cursor bound to the node at a place. -/
def bind (slots : List Node) (place : Nat) (parent : Option Parent) : Cursor :=
  ⟨slots, parent, place, false⟩

/-- The bound node; nothing once it was deleted. -/
def node? (c : Cursor) : Option Node :=
  if c.removed then none else c.slots[c.place]?

/-- The index of the bound node in its child list; nothing for the root of a walk. -/
def index? (c : Cursor) : Option Nat := c.parent.map fun _ => c.place

/-- The child list of the bound node; empty for the root of a walk. -/
def siblings (c : Cursor) : List Node :=
  if c.parent.isSome then c.slots else []

/-- Change the bound node in place. Nothing happens once it was deleted. -/
def modify (c : Cursor) (f : Node → Node) : Cursor :=
  if c.removed then c else { c with slots := c.slots.modify c.place f }

/-- Exchange the bound node for another. The answer holds the node that was bound, if any. -/
def replace (c : Cursor) (n : Node) : Except CursorFault (Option Node) × Cursor :=
  if c.removed then (.error (.deleted .replace), c)
  else (.ok c.slots[c.place]?, { c with slots := c.slots.set c.place n })

/-- Delete the bound node. The answer holds the node that was bound, if any. -/
def delete (c : Cursor) : Except CursorFault (Option Node) × Cursor :=
  if c.parent.isNone then (.error (.notInList .delete), c)
  else if c.removed then (.error (.deleted .delete), c)
  else (.ok c.slots[c.place]?, { c with slots := c.slots.eraseIdx c.place, removed := true })

/-- Insert a node directly before the bound node, or before the place it left. -/
def insertBefore (c : Cursor) (n : Node) : Except CursorFault Unit × Cursor :=
  if c.parent.isNone then (.error (.notInList .insertBefore), c)
  else (.ok (), { c with slots := c.slots.insertIdx c.place n, place := c.place + 1 })

/-- Insert a node directly after the bound node, or into the place it left. -/
def insertAfter (c : Cursor) (n : Node) : Except CursorFault Unit × Cursor :=
  if c.parent.isNone then (.error (.notInList .insertAfter), c)
  else
    let target := if c.removed then c.place else c.place + 1
    (.ok (), { c with slots := c.slots.insertIdx target n })

end Cursor

/-- One change that a handler asks for. -/
inductive Edit where
  | replace (n : Node)
  | delete
  | insertBefore (n : Node)
  | insertAfter (n : Node)
  | modify (f : Node → Node)

namespace Cursor

/-- Carry out one edit, or refuse it. -/
def edit (c : Cursor) : Edit → Except CursorFault Unit × Cursor
  | .replace n => ((c.replace n).1.map fun _ => (), (c.replace n).2)
  | .delete => (c.delete.1.map fun _ => (), c.delete.2)
  | .insertBefore n => c.insertBefore n
  | .insertAfter n => c.insertAfter n
  | .modify f => (.ok (), c.modify f)

/-- Carry out one edit for a handler that fails when it is refused. -/
def perform (c : Cursor) (e : Edit) : Except CursorFault Cursor :=
  (c.edit e).1.map fun _ => (c.edit e).2

/-- Carry out edits in order, going on after those that are refused. -/
def apply (c : Cursor) (edits : List Edit) : Cursor :=
  edits.foldl (fun c e => (c.edit e).2) c

@[simp] theorem apply_nil (c : Cursor) : c.apply [] = c := rfl

end Cursor

end Graft
