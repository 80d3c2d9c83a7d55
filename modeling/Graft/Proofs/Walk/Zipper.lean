import Graft.Cursor

/-!
# Child lists as zippers

A cursor keeps one child list and an index into it. A zipper keeps the same list as the nodes
before the bound node, the node itself unless it was deleted, and the nodes after it. On a zipper
every edit is local: an insertion before the node goes to the end of the first list, an insertion
after it to the front of the second, and nothing else of the two lists ever changes.

`Zipper.apply_cursor` relates the two: a cursor that stands on a zipper stands, after any list of
edits, on the edited zipper. This includes insertions after a deletion and edits that are refused.
-/

namespace Graft

/-- A place in a child list. The node is missing once it was deleted. -/
structure Zipper where
  /-- The nodes before the place, in order. -/
  done : List Node
  node? : Option Node
  /-- The nodes after the place, in order. -/
  todo : List Node

namespace Zipper

/-- The child list that the zipper is a place of. -/
def nodes (z : Zipper) : List Node := z.done ++ (z.node?.toList ++ z.todo)

/-- The place with another node in it. -/
def put (z : Zipper) (n : Node) : Zipper := { z with node? := some n }

/-- The cursor on the place. -/
def cursor (z : Zipper) (parent : Option Parent) : Cursor :=
  ⟨z.nodes, parent, z.done.length, z.node?.isNone⟩

/-- The effect of one edit. A node outside every child list cannot be deleted and gets no
siblings; a deleted node is neither exchanged nor changed. -/
def perform (inList : Bool) (z : Zipper) : Edit → Zipper
  | .replace n => { z with node? := z.node?.map fun _ => n }
  | .modify f => { z with node? := z.node?.map f }
  | .delete => if inList then { z with node? := none } else z
  | .insertBefore n => if inList then { z with done := z.done ++ [n] } else z
  | .insertAfter n => if inList then { z with todo := n :: z.todo } else z

/-- The effect of a list of edits. -/
def apply (inList : Bool) (z : Zipper) (edits : List Edit) : Zipper :=
  edits.foldl (perform inList) z

variable (done todo : List Node) (n : Node)

@[simp] theorem nodes_some : nodes ⟨done, some n, todo⟩ = done ++ n :: todo := rfl

@[simp] theorem nodes_none : nodes ⟨done, none, todo⟩ = done ++ todo := rfl

@[simp] theorem apply_nil (inList : Bool) (z : Zipper) : z.apply inList [] = z := rfl

@[simp] theorem apply_cons (inList : Bool) (z : Zipper) (e : Edit) (es : List Edit) :
    z.apply inList (e :: es) = (z.perform inList e).apply inList es := rfl

theorem apply_append (inList : Bool) (z : Zipper) (es fs : List Edit) :
    z.apply inList (es ++ fs) = (z.apply inList es).apply inList fs := by
  simp [apply]

theorem bind_eq_cursor (parent : Option Parent) :
    Cursor.bind (done ++ n :: todo) done.length parent =
      cursor ⟨done, some n, todo⟩ parent := rfl

@[simp] theorem node?_cursor (z : Zipper) (parent : Option Parent) :
    (z.cursor parent).node? = z.node? := by
  obtain ⟨done, _ | n, todo⟩ := z
  · rfl
  · simp [cursor, Cursor.node?]

/-- A cursor on a node stands on a zipper. -/
theorem exists_of_node? {c : Cursor} {n : Node} (here : c.node? = some n) :
    ∃ done todo, c = cursor ⟨done, some n, todo⟩ c.parent := by
  obtain ⟨slots, parent, place, removed⟩ := c
  cases removed with
  | true => cases here
  | false =>
      obtain ⟨inside, rfl⟩ := List.getElem?_eq_some_iff.mp here
      simp only at inside
      refine ⟨slots.take place, slots.drop (place + 1), ?_⟩
      have length : (slots.take place).length = place := by
        rw [List.length_take]
        omega
      simp [cursor, length]

/-! ### Edits in the middle of a list -/

private theorem modify_middle (f : Node → Node) :
    (done ++ n :: todo).modify done.length f = done ++ f n :: todo := by
  induction done with
  | nil => rfl
  | cons d done ih => simpa using ih

private theorem eraseIdx_middle :
    (done ++ n :: todo).eraseIdx done.length = done ++ todo := by
  rw [List.eraseIdx_append_of_length_le (Nat.le_refl _), Nat.sub_self, List.eraseIdx_cons_zero]

private theorem insertIdx_middle :
    (done ++ todo).insertIdx done.length n = done ++ n :: todo := by
  induction done with
  | nil => rfl
  | cons d done ih => simpa using ih

private theorem insertIdx_past_middle (m : Node) :
    (done ++ m :: todo).insertIdx (done.length + 1) n = done ++ m :: n :: todo := by
  simpa using insertIdx_middle (done ++ [m]) todo n

/-! ### The cursor of an edited zipper -/

/-- One edit, carried out or refused, leads from the cursor on a zipper to the cursor on the
edited zipper. -/
theorem edit_cursor (z : Zipper) (parent : Option Parent) (e : Edit) :
    ((z.cursor parent).edit e).2 = (z.perform parent.isSome e).cursor parent := by
  obtain ⟨done, node?, todo⟩ := z
  cases e with
  | replace n =>
      cases node? with
      | none => rfl
      | some m =>
          simp [Cursor.edit, Cursor.replace, perform, cursor, Except.map]
  | modify f =>
      cases node? with
      | none => rfl
      | some m =>
          simp [Cursor.edit, Cursor.modify, perform, cursor, modify_middle]
  | delete =>
      cases parent with
      | none => rfl
      | some p =>
          cases node? with
          | none => rfl
          | some m =>
              simp [Cursor.edit, Cursor.delete, perform, cursor, Except.map, eraseIdx_middle]
  | insertBefore n =>
      cases parent with
      | none => rfl
      | some p =>
          simp only [Cursor.edit, Cursor.insertBefore, perform, cursor, nodes,
            Option.isNone_some, Bool.false_eq_true, if_false, Option.isSome_some, if_true,
            insertIdx_middle, List.length_append, List.length_singleton]
          simp
  | insertAfter n =>
      cases parent with
      | none => rfl
      | some p =>
          cases node? with
          | none =>
              simp [Cursor.edit, Cursor.insertAfter, perform, cursor, insertIdx_middle]
          | some m =>
              simp [Cursor.edit, Cursor.insertAfter, perform, cursor, insertIdx_past_middle]

/-- Any list of edits leads from the cursor on a zipper to the cursor on the edited zipper. -/
theorem apply_cursor (z : Zipper) (parent : Option Parent) (edits : List Edit) :
    (z.cursor parent).apply edits = (z.apply parent.isSome edits).cursor parent := by
  induction edits generalizing z with
  | nil => rfl
  | cons e edits ih =>
      rw [apply_cons, ← ih, ← edit_cursor]
      rfl

/-! ### What edits leave alone -/

/-- The nodes on either side of a place are never changed, only added to next to it. -/
theorem perform_around (inList : Bool) (z : Zipper) (e : Edit) :
    z.done <+: (z.perform inList e).done ∧ z.todo <:+ (z.perform inList e).todo := by
  cases e with
  | insertBefore m =>
      cases inList with
      | false => exact ⟨List.prefix_refl _, List.suffix_refl _⟩
      | true => exact ⟨List.prefix_append _ _, List.suffix_refl _⟩
  | insertAfter m =>
      cases inList with
      | false => exact ⟨List.prefix_refl _, List.suffix_refl _⟩
      | true => exact ⟨List.prefix_refl _, List.suffix_cons _ _⟩
  | delete => cases inList <;> exact ⟨List.prefix_refl _, List.suffix_refl _⟩
  | replace m => exact ⟨List.prefix_refl _, List.suffix_refl _⟩
  | modify f => exact ⟨List.prefix_refl _, List.suffix_refl _⟩

theorem apply_around (inList : Bool) (z : Zipper) (edits : List Edit) :
    z.done <+: (z.apply inList edits).done ∧ z.todo <:+ (z.apply inList edits).todo := by
  induction edits generalizing z with
  | nil => exact ⟨List.prefix_refl _, List.suffix_refl _⟩
  | cons e edits ih =>
      obtain ⟨first, last⟩ := perform_around inList z e
      obtain ⟨first', last'⟩ := ih (z.perform inList e)
      exact ⟨first.trans first', last.trans last'⟩

end Zipper

end Graft
