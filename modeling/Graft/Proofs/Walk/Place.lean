import Graft.Proofs.Walk.Cursor
import Graft.Proofs.Walk.Insertions

/-!
# What a walk makes of a place

A walk over a place of a child list changes the list in at most three ways: by the edits of the
handler in the call before the children, by the walk over the children of the node that is then in
the place, and by the edits of the call after them. To the list, the walk over the children is an
edit like any other: it gives the node in the place other children. `Walk.Edits` lists the edits up
to the exit that the walk takes.

With these edits the place is what `Cursor.represents` says of any cursor. `Walk.run_frames` puts this
down for both entry points of a walk, however the walk ends. The list keeps the nodes before and
after the place, between them stand what was inserted and the node that is now bound, and the
position is that of this node. A root stays alone in the list that holds it, so there is always one
node to give back.
-/

namespace Graft

open Edit (ahead behind changed bound)

variable {σ : Type}

namespace Walk

/-- The edits that the handler asks for in a call on a cursor. -/
def asked (h : Handler σ) (ctx : Context) (phase : Phase) (session : Session σ) (c : Cursor) :
    List Edit :=
  (h ctx phase c session.state).edits

/-- The bound node with other children, as an edit. -/
def refill (nodes : List Node) : Edit := .modify fun n => { n with children := nodes }

/-- These edits are made in a place during a walk over it: those of the first call, then the
children of the node that stands there if they are walked, and then those of the second call if it
is reached. -/
def Edits (h : Handler σ) (ctx : Context) (parent : Option Parent) (session : Session σ)
    (slots : List Node) (place : Nat) (span : Span) (edits : List Edit) : Prop :=
  let first := asked h ctx .pre session (.bind slots place parent)
  let c := call h ctx .pre session slots place parent span
  match c.outcome, c.cursor.node? with
  | .ok .continue, some m => ∃ budget w,
      children h ctx (Parent.of m) budget c.session m.children 0 (m.span.orElse span) = some w ∧
      edits = first ++ refill w.slots :: if w.flow = .next then
        asked h ctx .post w.session (c.cursor.apply [refill w.slots]) else []
  | .ok .skipChildren, some _ => edits = first ++ asked h ctx .post c.session c.cursor
  | _, _ => edits = first

end Walk

namespace Zipper

/-- Other children for the node in a place. -/
theorem apply_refill {z : Zipper} {m : Node} (stands : z.node? = some m) (inList : Bool)
    (nodes : List Node) :
    z.apply inList [Walk.refill nodes] = z.put { m with children := nodes } := by
  simp [apply, perform, put, Walk.refill, stands]

end Zipper

namespace ZipperWalk

open Walk (asked refill)

variable {h : Handler σ} {ctx : Context} {budget : Nat} {session : Session σ}
variable {done todo : List Node} {n : Node} {fallback : Span} {v : Visit σ}

/-- A visit leaves its place as the edits in it make it. -/
theorem visit_edits {parent : Option Parent}
    (visited : visit h ctx parent budget session done n todo fallback = some v) :
    ∃ edits, Walk.Edits h ctx parent session (done ++ n :: todo) done.length
        (n.span.orElse fallback) edits ∧
      v.zipper = Zipper.apply parent.isSome ⟨done, some n, todo⟩ edits := by
  cases budget with
  | zero => simp [visit] at visited
  | succ budget =>
      have reached : (call h ctx .pre session ⟨done, some n, todo⟩ parent
          (n.span.orElse fallback)).zipper = Zipper.apply parent.isSome ⟨done, some n, todo⟩
            (asked h ctx .pre session (.bind (done ++ n :: todo) done.length parent)) :=
        zipper_call ..
      have called := call_eq h ctx .pre session done todo n parent (n.span.orElse fallback)
      have ways := visit_cases visited
      simp only at ways
      unfold Walk.Edits
      rw [called]
      generalize n.span.orElse fallback = span at reached called ways ⊢
      generalize call h ctx .pre session ⟨done, some n, todo⟩ parent span = pre
        at reached called ways ⊢
      simp only [Met.called, Zipper.node?_cursor]
      rcases ways with ⟨rfl, ends⟩ | ⟨m, skips, stands, rfl⟩ | ⟨m, w, goes, stands, walked, ended⟩
      · refine ⟨_, ?_, reached⟩
        split
        · next goes stands => simp [goes, stands, flowOf] at ends
        · next skips stands => simp [skips, stands, flowOf] at ends
        · rfl
      · simp only [skips, stands]
        refine ⟨_, rfl, ?_⟩
        rw [Zipper.apply_append, ← reached]
        exact zipper_call h ctx .post pre.session pre.zipper parent span
      · have below : Walk.children h ctx (Parent.of m) budget pre.session m.children 0
            (m.span.orElse span) = some w.walked := by
          have same := (slot_eq_and_children_eq h ctx budget).2 (Parent.of m) pre.session []
            m.children (m.span.orElse span)
          rwa [walked] at same
        simp only [goes, stands]
        refine ⟨_, ⟨budget, w.walked, below, rfl⟩, ?_⟩
        have refilled := Zipper.apply_refill stands parent.isSome w.walked.slots
        rw [Zipper.apply_append, ← reached, ← List.singleton_append, Zipper.apply_append, refilled]
        rcases ended with ⟨stops, rfl⟩ | ⟨goesOn, rfl⟩
        · rw [if_neg (c := w.walked.flow = .next) stops]
          rfl
        · rw [if_pos (c := w.walked.flow = .next) goesOn, Zipper.apply_cursor, refilled]
          exact zipper_call h ctx .post w.session (pre.zipper.put { m with children := w.nodes })
            parent span

end ZipperWalk

namespace Walk

variable {h : Handler σ} {ctx : Context} {budget : Nat} {session : Session σ}

/-- **Frame.** A walk over a place of a child list, however it ends, leaves the nodes before and
after the place as they were. Between them stand the nodes inserted before the bound node, this node
with all that was made of it unless it was deleted, and the nodes inserted after it; the position is
that of the node. A walk over a root gives back the one node in the list that held the root, which
is the root with all that was made of it. -/
theorem run_frames (h : Handler σ) (ctx : Context) (budget : Nat) (session : Session σ) :
    (∀ (orig : List Node) (i : Nat) (inside : i < orig.length) (parent : Parent) (v : Visited σ),
      runSlot h ctx budget session orig i parent = some v →
      ∃ edits, Edits h ctx (some parent) session orig i (orig[i].span.orElse parent.span) edits ∧
        v.slots = orig.take i ++ (ahead edits ++ ((bound orig[i] edits).toList ++
          (behind edits ++ orig.drop (i + 1)))) ∧
        v.position = (bound orig[i] edits).map fun _ => i + (ahead edits).length) ∧
    ∀ (root : Node) (r : Rooted σ), run h ctx budget session root = some r →
      ∃ edits v, Edits h ctx none session [root] 0 (root.span.orElse .detached) edits ∧
        slot h ctx none budget session [root] 0 .detached = some v ∧
        v.slots = [r.root] ∧ v.flow = r.flow ∧ r.root = changed root edits := by
  constructor
  · intro orig i inside parent v ran
    have length : (orig.take i).length = i := List.length_take_of_le (Nat.le_of_lt inside)
    have cut : orig.take i ++ orig[i] :: orig.drop (i + 1) = orig := by simp
    have visited := ZipperWalk.runSlot_eq h ctx budget session (orig.take i) (orig.drop (i + 1))
      orig[i] parent
    rw [length, cut, ran, eq_comm, Option.map_eq_some_iff] at visited
    obtain ⟨reference, visited, rfl⟩ := visited
    obtain ⟨edits, made, place⟩ := ZipperWalk.visit_edits visited
    rw [length, cut] at made
    rw [Option.isSome_some, Zipper.apply_eq] at place
    refine ⟨edits, made, ?_, ?_⟩
    · simp [ZipperWalk.Visit.visited, Zipper.nodes, place]
    · simp [ZipperWalk.Visit.visited, place, length]
  · intro root r ran
    have visited := (ZipperWalk.slot_eq_and_children_eq h ctx budget).1 none session [] [] root
      .detached
    rw [List.nil_append, List.length_nil] at visited
    obtain ⟨v, walked, rfl⟩ := Option.map_eq_some_iff.mp ran
    rw [walked, eq_comm, Option.map_eq_some_iff] at visited
    obtain ⟨reference, visited, rfl⟩ := visited
    obtain ⟨edits, made, place⟩ := ZipperWalk.visit_edits visited
    rw [Option.isSome_none, Zipper.apply_root] at place
    have alone : reference.visited.slots = [changed root edits] := by
      simp [ZipperWalk.Visit.visited, Zipper.nodes, place]
    exact ⟨edits, reference.visited, made, walked, by simp [alone], rfl, by simp [alone]⟩

/-- Exchange a node and insert one before it in the first call, and one after it in the second. -/
def enclosing : Handler Unit := fun _ phase _ _ =>
  match phase with
  | .pre => ⟨(), [.insertBefore (.ident "ahead"), .replace (.ident "new")], [], .ok .continue⟩
  | .post => ⟨(), [.insertAfter (.ident "behind")], [], .ok .stop⟩

theorem run_frames_enclosing :
    let ctx : Context := ⟨⟨⟨"a.rmc"⟩, ""⟩, ⟨[]⟩, ⟨[]⟩, "enclosing"⟩
    let orig : List Node := [.ident "X", .ident "Y", .ident "Z"]
    let parent : Parent := ⟨.unit, "", .detached⟩
    (∃ v edits, runSlot enclosing ctx 3 ⟨(), [], 0⟩ orig 1 parent = some v ∧
      Edits enclosing ctx (some parent) ⟨(), [], 0⟩ orig 1 .detached edits ∧
      v.slots.map (·.value) = ["X", "ahead", "new", "behind", "Z"] ∧ v.position = some 2 ∧
      v.slots = orig.take 1 ++ (ahead edits ++ ((bound (.ident "Y") edits).toList ++
        (behind edits ++ orig.drop 2)))) ∧
    ∃ r edits, run enclosing ctx 3 ⟨(), [], 0⟩ (.ident "X") = some r ∧ r.flow = .stop ∧
      r.root = .ident "new" ∧ r.root = changed (.ident "X") edits := by
  intro ctx orig parent
  obtain ⟨slotFrame, rootFrame⟩ := run_frames enclosing ctx 3 ⟨(), [], 0⟩
  constructor
  · have here : (runSlot enclosing ctx 3 ⟨(), [], 0⟩ orig 1 parent).map
        (fun v => (v.slots.map (·.value), v.position)) =
          some (["X", "ahead", "new", "behind", "Z"], some 2) := by decide
    obtain ⟨v, ran, same⟩ := Option.map_eq_some_iff.mp here
    obtain ⟨values, position⟩ := Prod.mk.inj same
    obtain ⟨edits, made, slots, -⟩ := slotFrame orig 1 (by decide) parent v ran
    exact ⟨v, edits, ran, made, values, position, slots⟩
  · have here : (run enclosing ctx 3 ⟨(), [], 0⟩ (.ident "X")).map
        (fun r => (r.flow, r.root)) = some (.stop, .ident "new") := by decide
    obtain ⟨r, ran, same⟩ := Option.map_eq_some_iff.mp here
    obtain ⟨flow, root⟩ := Prod.mk.inj same
    obtain ⟨edits, v, -, -, -, -, edited⟩ := rootFrame (.ident "X") r ran
    exact ⟨r, edits, ran, flow, root, edited⟩

end Walk

end Graft
