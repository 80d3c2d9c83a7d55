import Graft.Proofs.Walk.Reference

/-!
# What a walk does and what it leaves alone

`ZipperWalk.visit_cases` lists, once, the ways in which the visit of a node can go. From it follow
the frame of a visit, `visit_around`: the nodes before the visited node and those after it stay as
they were, and what a handler inserts stands next to the visited node. A node that stands in no
child list stays alone, `visit_alone`.

`ZipperWalk.refines` states the refinement for the two entry points of a walk: the place of a
child list, and a root. It holds for every budget, so for every walk that ends.
-/

namespace Graft

namespace Zipper

/-- Edits of a node outside every child list keep it where it is. -/
theorem apply_alone (done todo : List Node) (n : Node) (edits : List Edit) :
    ∃ m, apply false ⟨done, some n, todo⟩ edits = ⟨done, some m, todo⟩ := by
  induction edits generalizing n with
  | nil => exact ⟨n, rfl⟩
  | cons e edits ih =>
      cases e with
      | replace m => exact ih m
      | modify f => exact ih (f n)
      | delete => exact ih n
      | insertBefore m => exact ih n
      | insertAfter m => exact ih n

end Zipper

namespace ZipperWalk

variable {σ : Type} {h : Handler σ} {ctx : Context} {budget : Nat} {session : Session σ}
variable {done todo : List Node} {n : Node} {fallback : Span} {v : Visit σ}

/-- A call changes a zipper by the edits that the handler asks for. -/
theorem zipper_call (h : Handler σ) (ctx : Context) (phase : Phase) (session : Session σ)
    (z : Zipper) (parent : Option Parent) (span : Span) :
    (call h ctx phase session z parent span).zipper =
      z.apply parent.isSome (h ctx phase (z.cursor parent) session.state).edits := by
  simp only [call]
  cases (h ctx phase (z.cursor parent) session.state).outcome <;> rfl

theorem call_around (h : Handler σ) (ctx : Context) (phase : Phase) (session : Session σ)
    (z : Zipper) (parent : Option Parent) (span : Span) :
    z.done <+: (call h ctx phase session z parent span).zipper.done ∧
      z.todo <:+ (call h ctx phase session z parent span).zipper.todo := by
  rw [zipper_call]
  exact z.apply_around parent.isSome _

/-- The ways in which a visit can go. It ends with its first call when that call deletes the node
or does not ask to go on. Otherwise a second call follows, at once when the children are skipped,
and else after the walk over the children of the node that then stands in the place, unless that
walk ended the visit. -/
theorem visit_cases {parent : Option Parent}
    (visited : visit h ctx parent (budget + 1) session done n todo fallback = some v) :
    let span := n.span.orElse fallback
    let first := Call.on .pre ⟨done, some n, todo⟩ parent
    let pre := call h ctx .pre session ⟨done, some n, todo⟩ parent span
    (v = pre.close [first] ∧ (pre.zipper.node? = none ∨ flowOf pre.outcome ≠ .next)) ∨
    (∃ m, pre.outcome = .ok .skipChildren ∧ pre.zipper.node? = some m ∧
      v = (call h ctx .post pre.session pre.zipper parent span).close
        [first, Call.on .post pre.zipper parent]) ∨
    ∃ m w, pre.outcome = .ok .continue ∧ pre.zipper.node? = some m ∧
      walk h ctx (Parent.of m) budget pre.session [] m.children (m.span.orElse span) = some w ∧
      let z := pre.zipper.put { m with children := w.nodes }
      (w.flow ≠ .next ∧ v = ⟨w.session, z, w.flow, first :: w.calls⟩ ∨
        w.flow = .next ∧ v = (call h ctx .post w.session z parent span).close
          (first :: w.calls ++ [Call.on .post z parent])) := by
  rw [visit_succ] at visited
  simp only at visited ⊢
  generalize n.span.orElse fallback = span at visited ⊢
  generalize Call.on .pre ⟨done, some n, todo⟩ parent = first at visited ⊢
  generalize call h ctx .pre session ⟨done, some n, todo⟩ parent span = pre at visited ⊢
  cases outcome : pre.outcome with
  | error f =>
      refine Or.inl ⟨?_, Or.inr (by simp [flowOf])⟩
      simp only [outcome] at visited
      exact (Option.some.inj visited).symm
  | ok verdict =>
      cases here : pre.zipper.node? with
      | none =>
          refine Or.inl ⟨?_, Or.inl rfl⟩
          cases verdict <;> simp only [outcome, here] at visited <;>
            exact (Option.some.inj visited).symm
      | some m =>
          cases verdict with
          | stop =>
              refine Or.inl ⟨?_, Or.inr (by simp [flowOf])⟩
              simp only [outcome, here] at visited
              exact (Option.some.inj visited).symm
          | skipChildren =>
              refine Or.inr (Or.inl ⟨m, rfl, rfl, ?_⟩)
              simp only [outcome, here] at visited
              exact (Option.some.inj visited).symm
          | «continue» =>
              refine Or.inr (Or.inr ?_)
              simp only [outcome, here] at visited
              cases walked : walk h ctx (Parent.of m) budget pre.session [] m.children
                (m.span.orElse span) with
              | none => simp [walked] at visited
              | some w =>
                  refine ⟨m, w, rfl, rfl, walked, ?_⟩
                  simp only [walked] at visited
                  cases ended : w.flow with
                  | next =>
                      simp only [ended] at visited
                      exact Or.inr ⟨rfl, (Option.some.inj visited).symm⟩
                  | stop =>
                      simp only [ended] at visited
                      exact Or.inl ⟨by simp, (Option.some.inj visited).symm⟩
                  | failed f =>
                      simp only [ended] at visited
                      exact Or.inl ⟨by simp, (Option.some.inj visited).symm⟩

/-- A visit leaves the nodes around the visited node as they were, in order, and adds nodes next
to the visited node only. -/
theorem visit_around {parent : Option Parent}
    (visited : visit h ctx parent budget session done n todo fallback = some v) :
    done <+: v.zipper.done ∧ todo <:+ v.zipper.todo := by
  cases budget with
  | zero => simp [visit] at visited
  | succ budget =>
      have before := call_around h ctx .pre session ⟨done, some n, todo⟩ parent
        (n.span.orElse fallback)
      have ways := visit_cases visited
      simp only at ways
      generalize call h ctx .pre session ⟨done, some n, todo⟩ parent (n.span.orElse fallback) =
        pre at before ways
      rcases ways with ⟨rfl, -⟩ | ⟨m, -, -, rfl⟩ | ⟨m, w, -, -, -, ⟨-, rfl⟩ | ⟨-, rfl⟩⟩
      · exact before
      · have after := call_around h ctx .post pre.session pre.zipper parent
          (n.span.orElse fallback)
        exact ⟨before.1.trans after.1, before.2.trans after.2⟩
      · exact before
      · have after := call_around h ctx .post w.session
          (pre.zipper.put { m with children := w.nodes }) parent (n.span.orElse fallback)
        exact ⟨before.1.trans after.1, before.2.trans after.2⟩

/-- A call on a node outside every child list keeps it where it is. -/
theorem call_alone (h : Handler σ) (ctx : Context) (phase : Phase) (session : Session σ)
    (n : Node) (span : Span) :
    ∃ m, (call h ctx phase session ⟨[], some n, []⟩ none span).zipper = ⟨[], some m, []⟩ := by
  rw [zipper_call]
  exact Zipper.apply_alone [] [] n _

/-- The visit of a node outside every child list neither deletes it nor gives it siblings. -/
theorem visit_alone (visited : visit h ctx none budget session [] n [] fallback = some v) :
    ∃ m, v.zipper = ⟨[], some m, []⟩ := by
  cases budget with
  | zero => simp [visit] at visited
  | succ budget =>
      obtain ⟨m, before⟩ := call_alone h ctx .pre session n (n.span.orElse fallback)
      rcases visit_cases visited with
        ⟨rfl, -⟩ | ⟨m, -, -, rfl⟩ | ⟨m, w, -, -, -, ⟨-, rfl⟩ | ⟨-, rfl⟩⟩
      · exact ⟨_, before⟩
      · rw [before]
        exact call_alone h ctx .post _ _ _
      · rw [before]
        exact ⟨_, rfl⟩
      · rw [before]
        exact call_alone h ctx .post _ _ _

/-- The result of a visit as that of a walk over a root. -/
def Visit.rooted (v : Visit σ) (root : Node) : Walk.Rooted σ :=
  ⟨v.session, v.zipper.node?.getD root, v.flow⟩

/-- The walk over a root is the visit of a node without siblings. -/
theorem run_eq (h : Handler σ) (ctx : Context) (budget : Nat) (session : Session σ)
    (root : Node) :
    Walk.run h ctx budget session root =
      (visit h ctx none budget session [] root [] .detached).map (Visit.rooted · root) := by
  have slot := (slot_eq_and_children_eq h ctx budget).1 none session [] [] root .detached
  rw [List.nil_append, List.length_nil] at slot
  rw [Walk.run, slot, Option.map_map]
  cases visited : visit h ctx none budget session [] root [] .detached with
  | none => rfl
  | some v =>
      obtain ⟨m, alone⟩ := visit_alone visited
      simp [Visit.visited, Visit.rooted, alone]

/-- A walk from a place of a child list is the visit of the node in that place. -/
theorem runSlot_eq (h : Handler σ) (ctx : Context) (budget : Nat) (session : Session σ)
    (done todo : List Node) (n : Node) (parent : Parent) :
    Walk.runSlot h ctx budget session (done ++ n :: todo) done.length parent =
      (visit h ctx (some parent) budget session done n todo parent.span).map Visit.visited :=
  (slot_eq_and_children_eq h ctx budget).1 (some parent) session done todo n parent.span

/-- A walk from a place is the visit of the node that stands there. -/
theorem exists_visit {h : Handler σ} {ctx : Context} {budget : Nat} {session : Session σ}
    {slots : List Node} {place : Nat} {n : Node} {parent : Parent} {v : Visited σ}
    (here : slots[place]? = some n)
    (ran : Walk.runSlot h ctx budget session slots place parent = some v) :
    ∃ reference, visit h ctx (some parent) budget session (slots.take place) n
      (slots.drop (place + 1)) parent.span = some reference ∧ v = reference.visited := by
  obtain ⟨inside, rfl⟩ := List.getElem?_eq_some_iff.mp here
  have cut : slots.take place ++ slots[place] :: slots.drop (place + 1) = slots := by simp
  have length : (slots.take place).length = place := List.length_take_of_le (Nat.le_of_lt inside)
  have same := runSlot_eq h ctx budget session (slots.take place) (slots.drop (place + 1))
    slots[place] parent
  rw [cut, length, ran, eq_comm, Option.map_eq_some_iff] at same
  obtain ⟨reference, visited, same⟩ := same
  exact ⟨reference, visited, same.symm⟩

/-- **Refinement.** A walk from a place of a child list, and a walk over a root, end if and only if
the reference walk does, with the same list, session and flow, and with the same position of the
walked node. They call the handler as the reference walk does: the same calls in the same order, on
the same node with the same parent and the same index. A root keeps its place. -/
theorem refines (h : Handler σ) (ctx : Context) (budget : Nat) (session : Session σ)
    (before : List Call) :
    (∀ parent done n todo,
      let reference := visit h ctx (some parent) budget session done n todo parent.span
      Walk.runSlot h ctx budget session (done ++ n :: todo) done.length parent =
        reference.map Visit.visited ∧
      Walk.runSlot (recorded h) ctx budget (session.record before) (done ++ n :: todo)
          done.length parent =
        reference.map fun v => (v.record before).visited) ∧
    ∀ root,
      let reference := visit h ctx none budget session [] root [] .detached
      Walk.run h ctx budget session root = reference.map (Visit.rooted · root) ∧
      Walk.run (recorded h) ctx budget (session.record before) root =
        reference.map (fun v => (v.record before).rooted root) ∧
      ∀ v, reference = some v → ∃ m, v.zipper = ⟨[], some m, []⟩ := by
  have calls := (visit_recorded_and_walk_recorded h ctx budget).1
  constructor
  · intro parent done n todo
    refine ⟨runSlot_eq h ctx budget session done todo n parent, ?_⟩
    rw [runSlot_eq, calls, Option.map_map]
    rfl
  · intro root
    refine ⟨run_eq h ctx budget session root, ?_, fun v visited => visit_alone visited⟩
    rw [run_eq, calls, Option.map_map]
    rfl

end ZipperWalk

end Graft
