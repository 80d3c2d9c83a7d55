import Graft.Proofs.Walk.Zipper
import Mathlib.Data.List.Induction

/-!
# A cursor after any edits

The index of a cursor means a node until the node is deleted, and from then on the gap that it
left, which can lie past the last node. A cursor on a child list still shows one picture all the
time. Between the nodes that stood before the bound node and those that stood after it, there are
the nodes inserted before it in the order of the calls, the node itself unless it was deleted, and
the nodes inserted after it, the latest first. Insertions after a deletion are no exception.

`Zipper.apply_eq` finds this picture by induction on the edits, one step for an edit at their end.
`Cursor.represents` states it for both kinds of cursors, with the answer of every operation at the
point that the edits have reached. What an operation answers depends on the edits before it only
through the bound node. A cursor on the root of a walk has no gap to speak of: its list is always
the one node.
-/

namespace Graft

namespace Edit

/-- The node that an edit inserts before the bound node. -/
def before? : Edit → Option Node
  | .insertBefore n => some n
  | _ => none

/-- The node that an edit inserts after the bound node. -/
def after? : Edit → Option Node
  | .insertAfter n => some n
  | _ => none

/-- What an edit makes of the bound node, if it is still there. -/
def change : Edit → Node → Node
  | .replace m, _ => m
  | .modify f, n => f n
  | _, n => n

def isDelete : Edit → Bool
  | .delete => true
  | _ => false

/-- The nodes inserted before the bound node, in the order of the calls. -/
def ahead (edits : List Edit) : List Node := edits.filterMap before?

/-- The nodes inserted after the bound node, the latest first. -/
def behind (edits : List Edit) : List Node := (edits.filterMap after?).reverse

/-- The bound node with all that edits made of it. -/
def changed (n : Node) (edits : List Edit) : Node := edits.foldl (fun n e => e.change n) n

/-- The bound node after some edits; nothing if one of them deleted it. -/
def bound (n : Node) (edits : List Edit) : Option Node :=
  if edits.any isDelete then none else some (changed n edits)

theorem ahead_snoc (edits : List Edit) (e : Edit) :
    ahead (edits ++ [e]) = ahead edits ++ e.before?.toList := by
  rw [ahead, List.filterMap_append]
  cases e <;> rfl

theorem behind_snoc (edits : List Edit) (e : Edit) :
    behind (edits ++ [e]) = e.after?.toList ++ behind edits := by
  rw [behind, List.filterMap_append, List.reverse_append]
  cases e <;> rfl

theorem changed_snoc (n : Node) (edits : List Edit) (e : Edit) :
    changed n (edits ++ [e]) = e.change (changed n edits) := by
  simp [changed]

theorem bound_snoc (n : Node) (edits : List Edit) (e : Edit) :
    bound n (edits ++ [e]) = if e.isDelete then none else (bound n edits).map e.change := by
  rw [bound, bound, List.any_append, changed_snoc]
  cases edits.any isDelete <;> cases e <;> rfl

end Edit

open Edit (ahead behind changed bound)

namespace Zipper

theorem apply_snoc (inList : Bool) (z : Zipper) (edits : List Edit) (e : Edit) :
    z.apply inList (edits ++ [e]) = (z.apply inList edits).perform inList e :=
  apply_append inList z edits [e]

/-- One edit in a child list, by what it puts on either side and what it makes of the node. -/
theorem perform_eq (z : Zipper) (e : Edit) :
    z.perform true e =
      ⟨z.done ++ e.before?.toList, if e.isDelete then none else z.node?.map e.change,
        e.after?.toList ++ z.todo⟩ := by
  obtain ⟨done, _ | n, todo⟩ := z <;> cases e <;>
    simp [perform, Edit.before?, Edit.after?, Edit.isDelete, Edit.change]

/-- The place that edits in a child list lead to. -/
theorem apply_eq (done todo : List Node) (n : Node) (edits : List Edit) :
    apply true ⟨done, some n, todo⟩ edits =
      ⟨done ++ ahead edits, bound n edits, behind edits ++ todo⟩ := by
  induction edits using List.reverseRecOn with
  | nil => simp [ahead, behind, bound, changed]
  | append_singleton edits e ih =>
      rw [apply_snoc, ih, perform_eq, Edit.ahead_snoc, Edit.behind_snoc, Edit.bound_snoc,
        List.append_assoc, List.append_assoc]

/-- The node that edits outside every child list lead to. -/
theorem apply_root (n : Node) (edits : List Edit) :
    apply false ⟨[], some n, []⟩ edits = ⟨[], some (changed n edits), []⟩ := by
  induction edits using List.reverseRecOn with
  | nil => rfl
  | append_singleton edits e ih =>
      rw [apply_snoc, ih, Edit.changed_snoc]
      cases e <;> rfl

end Zipper

namespace Cursor

/-- What a cursor shows of the child list that it is bound in: the nodes around the place, those
inserted on either side of it, and the bound node, if it is still there. -/
structure Shows (c : Cursor) (p : Parent) (before ahead : List Node) (bound : Option Node)
    (behind after : List Node) : Prop where
  slots : c.slots = before ++ (ahead ++ (bound.toList ++ (behind ++ after)))
  parent : c.parent = some p
  place : c.place = before.length + ahead.length
  index? : c.index? = some (before.length + ahead.length)
  node? : c.node? = bound
  removed : c.removed = bound.isNone
  /-- The bound node, or else the gap that it left, is inside the list. -/
  inside : c.place + bound.toList.length ≤ c.slots.length

/-- How a cursor in a child list answers every operation while this node is bound to it. What was
bound is given back, and only a missing node is refused, by the cursor as it was. -/
structure Answers (c : Cursor) (bound : Option Node) : Prop where
  replace : ∀ m, c.replace m =
    match bound with
    | some n => (.ok (some n), c.apply [.replace m])
    | none => (.error (.deleted .replace), c)
  delete : c.delete =
    match bound with
    | some n => (.ok (some n), c.apply [.delete])
    | none => (.error (.deleted .delete), c)
  insertBefore : ∀ m, c.insertBefore m = (.ok (), c.apply [.insertBefore m])
  insertAfter : ∀ m, c.insertAfter m = (.ok (), c.apply [.insertAfter m])
  modify : ∀ f, bound = none → c.modify f = c

/-- A cursor on a root with this node, and how it answers. -/
structure Alone (c : Cursor) (n : Node) : Prop where
  slots : c.slots = [n]
  parent : c.parent = none
  place : c.place = 0
  index? : c.index? = none
  node? : c.node? = some n
  removed : c.removed = false
  replace : ∀ m, c.replace m = (.ok (some n), c.apply [.replace m])
  delete : c.delete = (.error (.notInList .delete), c)
  insertBefore : ∀ m, c.insertBefore m = (.error (.notInList .insertBefore), c)
  insertAfter : ∀ m, c.insertAfter m = (.error (.notInList .insertAfter), c)

/-- An edit that is refused leaves the cursor as it was. -/
theorem edit_of_refused {c : Cursor} {e : Edit} {fault : CursorFault}
    (refused : (c.edit e).1 = .error fault) : (c.edit e).2 = c := by
  cases e with
  | replace n =>
      simp only [edit, replace] at refused ⊢
      split at refused
      · next gone => rw [if_pos gone]
      · cases refused
  | delete =>
      simp only [edit, delete] at refused ⊢
      split at refused
      · next root => rw [if_pos root]
      · next inList =>
          split at refused
          · next gone => rw [if_neg inList, if_pos gone]
          · cases refused
  | insertBefore n =>
      simp only [edit, insertBefore] at refused ⊢
      split at refused
      · next root => rw [if_pos root]
      · cases refused
  | insertAfter n =>
      simp only [edit, insertAfter] at refused ⊢
      split at refused
      · next root => rw [if_pos root]
      · cases refused
  | modify f => cases refused

theorem shows_cursor (before ahead : List Node) (bound : Option Node) (behind after : List Node)
    (p : Parent) :
    Shows (Zipper.cursor ⟨before ++ ahead, bound, behind ++ after⟩ (some p)) p before ahead bound
      behind after := by
  refine ⟨?_, rfl, ?_, ?_, Zipper.node?_cursor _ _, rfl, ?_⟩
  · simp [Zipper.cursor, Zipper.nodes]
  · simp [Zipper.cursor]
  · simp [Zipper.cursor, index?]
  · simp only [Zipper.cursor, Zipper.nodes, List.length_append]
    omega

theorem answers_cursor (z : Zipper) (p : Parent) : Answers (z.cursor (some p)) z.node? := by
  obtain ⟨done, _ | n, todo⟩ := z
  · exact ⟨fun _ => rfl, rfl, fun _ => rfl, fun _ => rfl, fun _ _ => rfl⟩
  · refine ⟨?_, ?_, fun _ => rfl, fun _ => rfl, ?_⟩
    · intro m
      simp [replace, Zipper.cursor, apply, edit]
    · simp [delete, Zipper.cursor, apply, edit]
    · rintro f ⟨⟩

theorem alone_cursor (n : Node) : Alone (Zipper.cursor ⟨[], some n, []⟩ none) n :=
  ⟨rfl, rfl, rfl, rfl, rfl, rfl, fun _ => rfl, rfl, fun _ => rfl, fun _ => rfl⟩

/-- **The cursor.** After any edits a cursor in a child list shows the nodes around its place as
they were, between them what was inserted in these edits, and the bound node with what they made of
it; its index is that of the node, or of the gap. A cursor on a root keeps one node and refuses the
rest. Operations give back the node that was bound, and a refused operation leaves the cursor as it
was. -/
theorem represents (before after : List Node) (n : Node) (edits : List Edit) :
    (∀ p,
      let c := (bind (before ++ n :: after) before.length (some p)).apply edits
      c.Shows p before (ahead edits) (bound n edits) (behind edits) after ∧
        c.Answers (bound n edits)) ∧
    ((bind [n] 0 none).apply edits).Alone (changed n edits) ∧
    ∀ (c : Cursor) (e : Edit) (fault : CursorFault), (c.edit e).1 = .error fault →
      (c.edit e).2 = c := by
  refine ⟨?_, ?_, fun c e fault => edit_of_refused⟩
  · intro p
    have edited := Zipper.apply_cursor ⟨before, some n, after⟩ (some p) edits
    rw [Option.isSome_some, Zipper.apply_eq, ← Zipper.bind_eq_cursor] at edited
    simp only [edited]
    exact ⟨shows_cursor _ _ _ _ _ p, answers_cursor _ p⟩
  · have edited := Zipper.apply_cursor ⟨[], some n, []⟩ none edits
    rw [Option.isSome_none, Zipper.apply_root] at edited
    have start : bind [n] 0 none = Zipper.cursor ⟨[], some n, []⟩ none := rfl
    rw [start, edited]
    exact alone_cursor _

end Cursor

end Graft
