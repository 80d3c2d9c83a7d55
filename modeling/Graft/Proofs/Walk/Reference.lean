import Graft.Proofs.Walk.Zipper
import Graft.Walk

/-!
# The walk over a list of nodes done and a list still to do

The walk of `Graft.Walk` keeps an index into a child list that handlers lengthen and shorten
through indices of their own. The reference walk of this module has no index. It takes the head of
the list still to do and visits it: what the handler inserts before the node goes to the end of
the list done, what it inserts after the node to the front of the list still to do. A node that
was deleted is left behind; every other node is moved to the list done after its second call.

`ZipperWalk.slot_eq_and_children_eq` says that both walks are the same function, for every handler
and every budget. It is proved by one induction on the budget, with one step for each of the two
functions. The reference walk also lists its calls. `visit_recorded_and_walk_recorded` says that a
handler that keeps a list of its calls ends with this list.
-/

namespace Graft

/-- A handler call, by what the handler is shown of the place it is called on. -/
structure Call where
  phase : Phase
  node? : Option Node
  parent : Option Parent
  /-- The index among the siblings; nothing for the root of a walk. -/
  index? : Option Nat
deriving DecidableEq

/-- The call on a place of the child list of `parent`. -/
def Call.on (phase : Phase) (z : Zipper) (parent : Option Parent) : Call :=
  ⟨phase, z.node?, parent, parent.map fun _ => z.done.length⟩

/-- The same handler, keeping a list of its calls beside its own state. -/
def recorded {σ : Type} (h : Handler σ) : Handler (σ × List Call) :=
  fun ctx phase c state =>
    let reply := h ctx phase c state.1
    ⟨(reply.state, state.2 ++ [⟨phase, c.node?, c.parent, c.index?⟩]), reply.edits,
      reply.notices, reply.outcome⟩

/-- A session of the handler that keeps a list of its calls. -/
def Session.record {σ : Type} (s : Session σ) (calls : List Call) : Session (σ × List Call) :=
  ⟨(s.state, calls), s.reports, s.visits⟩

namespace ZipperWalk

variable {σ : Type}

/-- The flow that the outcome of a call leads to: only a stop and a failure end the walk. -/
def flowOf : Except PassFailure Verdict → Flow
  | .ok .stop => .stop
  | .ok .continue | .ok .skipChildren => .next
  | .error f => .failed f

/-- What one handler call leaves behind. -/
structure Met (σ : Type) where
  session : Session σ
  zipper : Zipper
  outcome : Except PassFailure Verdict

/-- What the visit of one node leaves behind: the node stands, if it still does, between the
nodes done and the nodes still to do. -/
structure Visit (σ : Type) where
  session : Session σ
  zipper : Zipper
  flow : Flow
  calls : List Call

/-- What the walk over a list leaves behind. -/
structure Tour (σ : Type) where
  session : Session σ
  nodes : List Node
  flow : Flow
  calls : List Call

/-- Call the handler on a place. A fault becomes a failure at the span that it gives, or else at
the span of the place, and the last report. -/
def call (h : Handler σ) (ctx : Context) (phase : Phase) (session : Session σ) (z : Zipper)
    (parent : Option Parent) (span : Span) : Met σ :=
  let reply := h ctx phase (z.cursor parent) session.state
  let reports := session.reports ++ reply.notices.map (Report.ofNotice ctx.source)
  let z := z.apply parent.isSome reply.edits
  match reply.outcome with
  | .ok verdict => ⟨⟨reply.state, reports, session.visits + 1⟩, z, .ok verdict⟩
  | .error fault =>
    let span := fault.span?.getD span
    let position := ctx.source.position span
    let report : Report :=
      ⟨.error, ctx.source.path, position, ctx.handlerName ++ ": " ++ fault.message⟩
    ⟨⟨reply.state, reports ++ [report], session.visits + 1⟩, z,
      .error ⟨ctx.handlerName, span, position, fault⟩⟩

/-- The visit that ends with a call, `calls` being all calls of the visit. -/
def Met.close (m : Met σ) (calls : List Call) : Visit σ :=
  ⟨m.session, m.zipper, flowOf m.outcome, calls⟩

mutual

/-- Visit a node and what is below it: a call before the children, the children of the node that
then stands in its place, and a call after them. A deletion, a verdict `stop` and a fault end the
visit, and so does the end of the walk among the children. The children see the kind, the value and
the span of the node as it stands before they are visited. -/
def visit (h : Handler σ) (ctx : Context) (parent : Option Parent) :
    (budget : Nat) → Session σ → (done : List Node) → Node → (todo : List Node) →
    (fallback : Span) → Option (Visit σ)
  | 0, _, _, _, _, _ => none
  | budget + 1, session, done, n, todo, fallback =>
    let span := if n.span.isEmpty then fallback else n.span
    let first := Call.on .pre ⟨done, some n, todo⟩ parent
    let pre := call h ctx .pre session ⟨done, some n, todo⟩ parent span
    match pre.outcome, pre.zipper.node? with
    | .ok .continue, some m =>
      match walk h ctx ⟨m.kind, m.value, m.span⟩ budget pre.session [] m.children
          (if m.span.isEmpty then span else m.span) with
      | none => none
      | some w =>
        let z := pre.zipper.put { m with children := w.nodes }
        match w.flow with
        | .next =>
          some ((call h ctx .post w.session z parent span).close
            (first :: w.calls ++ [Call.on .post z parent]))
        | flow => some ⟨w.session, z, flow, first :: w.calls⟩
    | .ok .skipChildren, some _ =>
      some ((call h ctx .post pre.session pre.zipper parent span).close
        [first, Call.on .post pre.zipper parent])
    | _, _ => some (pre.close [first])

/-- Visit the nodes still to do, one after the other, until none is left or a visit ends the
walk. -/
def walk (h : Handler σ) (ctx : Context) (parent : Parent) :
    (budget : Nat) → Session σ → (done todo : List Node) → (fallback : Span) → Option (Tour σ)
  | 0, _, _, _, _ => none
  | _ + 1, session, done, [], _ => some ⟨session, done, .next, []⟩
  | budget + 1, session, done, n :: todo, fallback =>
    match visit h ctx (some parent) budget session done n todo fallback with
    | none => none
    | some v =>
      match v.flow with
      | .next =>
        (walk h ctx parent budget v.session (v.zipper.done ++ v.zipper.node?.toList) v.zipper.todo
          fallback).map fun w => { w with calls := v.calls ++ w.calls }
      | flow => some ⟨v.session, v.zipper.nodes, flow, v.calls⟩

end

section Unfolding

variable (h : Handler σ) (ctx : Context)

/-- The visit of a node in terms of `Parent.of` and `Span.orElse`. -/
theorem visit_succ (parent : Option Parent) (budget : Nat) (session : Session σ)
    (done todo : List Node) (n : Node) (fallback : Span) :
    visit h ctx parent (budget + 1) session done n todo fallback =
      let span := n.span.orElse fallback
      let first := Call.on .pre ⟨done, some n, todo⟩ parent
      let pre := call h ctx .pre session ⟨done, some n, todo⟩ parent span
      match pre.outcome, pre.zipper.node? with
      | .ok .continue, some m =>
        match walk h ctx (Parent.of m) budget pre.session [] m.children (m.span.orElse span) with
        | none => none
        | some w =>
          let z := pre.zipper.put { m with children := w.nodes }
          match w.flow with
          | .next =>
            some ((call h ctx .post w.session z parent span).close
              (first :: w.calls ++ [Call.on .post z parent]))
          | flow => some ⟨w.session, z, flow, first :: w.calls⟩
      | .ok .skipChildren, some _ =>
        some ((call h ctx .post pre.session pre.zipper parent span).close
          [first, Call.on .post pre.zipper parent])
      | _, _ => some (pre.close [first]) :=
  rfl

end Unfolding

/-! ### One call -/

/-- The result of a call, with the cursor in place of the zipper. -/
def Met.called (m : Met σ) (parent : Option Parent) : Called σ :=
  ⟨m.session, m.zipper.cursor parent, m.outcome⟩

/-- The result of a visit, with the child list and an index in place of the zipper. -/
def Visit.visited (v : Visit σ) : Visited σ :=
  ⟨v.session, v.zipper.nodes, v.flow, v.zipper.node?.map fun _ => v.zipper.done.length,
    v.zipper.done.length + v.zipper.node?.toList.length⟩

/-- The result of a walk over a list, without the calls. -/
def Tour.walked (w : Tour σ) : Walked σ := ⟨w.session, w.nodes, w.flow⟩

variable (h : Handler σ) (ctx : Context)

theorem call_eq (phase : Phase) (session : Session σ) (done todo : List Node) (n : Node)
    (parent : Option Parent) (span : Span) :
    Walk.call h ctx phase session (done ++ n :: todo) done.length parent span =
      (call h ctx phase session ⟨done, some n, todo⟩ parent span).called parent := by
  simp only [Walk.call, call, Zipper.bind_eq_cursor, Zipper.apply_cursor]
  cases (h ctx phase (Zipper.cursor ⟨done, some n, todo⟩ parent) session.state).outcome <;> rfl

theorem leave_called (m : Met σ) (parent : Option Parent) (calls : List Call) :
    Walk.Called.leave (m.called parent) = (m.close calls).visited := by
  obtain ⟨session, ⟨done, _ | n, todo⟩, _ | (_ | _ | _)⟩ := m <;> rfl

/-! ### The two walks -/

/-- One more level of budget for the visit of a node. -/
theorem slot_eq_step {budget : Nat}
    (ih : ∀ parent session done todo fallback,
      Walk.children h ctx parent budget session (done ++ todo) done.length fallback =
        (walk h ctx parent budget session done todo fallback).map Tour.walked)
    (parent : Option Parent) (session : Session σ) (done todo : List Node) (n : Node)
    (fallback : Span) :
    Walk.slot h ctx parent (budget + 1) session (done ++ n :: todo) done.length fallback =
      (visit h ctx parent (budget + 1) session done n todo fallback).map Visit.visited := by
  have here : (done ++ n :: todo)[done.length]? = some n := by simp
  rw [Walk.slot, visit_succ]
  simp only [here, call_eq]
  generalize call h ctx .pre session ⟨done, some n, todo⟩ parent (n.span.orElse fallback) = pre
  obtain ⟨session, ⟨done', node?, todo'⟩, outcome⟩ := pre
  simp only [Met.called, Zipper.node?_cursor]
  cases outcome with
  | error f => cases node? <;> rfl
  | ok verdict =>
      cases node? with
      | none => cases verdict <;> rfl
      | some m =>
          cases verdict with
          | stop => rfl
          | skipChildren =>
              change some (Walk.Called.leave (Walk.call h ctx .post session
                (done' ++ m :: todo') done'.length parent (n.span.orElse fallback))) = _
              rw [call_eq, leave_called]
              rfl
          | «continue» =>
              have below := ih (Parent.of m) session [] m.children
                (m.span.orElse (n.span.orElse fallback))
              rw [List.nil_append, List.length_nil] at below
              simp only [below]
              cases walk h ctx (Parent.of m) budget session [] m.children
                (m.span.orElse (n.span.orElse fallback)) with
              | none => rfl
              | some w =>
                  obtain ⟨session', nodes, flow, calls⟩ := w
                  have slots : (done' ++ m :: todo').set done'.length
                      { m with children := nodes } =
                      done' ++ { m with children := nodes } :: todo' := by simp
                  cases flow with
                  | next =>
                      simp only [Option.map_some, Tour.walked, Zipper.cursor,
                        Zipper.nodes_some, slots, call_eq]
                      rw [leave_called]
                      rfl
                  | stop =>
                      simp only [Option.map_some, Tour.walked, Zipper.cursor,
                        Zipper.nodes_some, slots]
                      rfl
                  | failed f =>
                      simp only [Option.map_some, Tour.walked, Zipper.cursor,
                        Zipper.nodes_some, slots]
                      rfl

/-- One more level of budget for the walk over a list. -/
theorem children_eq_step {budget : Nat}
    (slots : ∀ parent session done todo n fallback,
      Walk.slot h ctx parent budget session (done ++ n :: todo) done.length fallback =
        (visit h ctx parent budget session done n todo fallback).map Visit.visited)
    (ih : ∀ parent session done todo fallback,
      Walk.children h ctx parent budget session (done ++ todo) done.length fallback =
        (walk h ctx parent budget session done todo fallback).map Tour.walked)
    (parent : Parent) (session : Session σ) (done todo : List Node) (fallback : Span) :
    Walk.children h ctx parent (budget + 1) session (done ++ todo) done.length fallback =
      (walk h ctx parent (budget + 1) session done todo fallback).map Tour.walked := by
  rw [Walk.children]
  cases todo with
  | nil => simp [walk, Tour.walked]
  | cons n todo =>
      have inside : done.length < (done ++ n :: todo).length := by simp
      rw [if_pos inside, slots, walk]
      cases visit h ctx (some parent) budget session done n todo fallback with
      | none => rfl
      | some v =>
          obtain ⟨session', ⟨done', node?, todo'⟩, flow, calls⟩ := v
          cases flow with
          | stop => rfl
          | failed f => rfl
          | next =>
              have moved := ih parent session' (done' ++ node?.toList) todo' fallback
              rw [List.append_assoc, List.length_append] at moved
              simp only [Option.map_some, Visit.visited, Zipper.nodes, moved, Option.map_map]
              rfl

/-- The index-based walks are the walks over a list done and a list still to do. The induction is
on the budget, for both functions at once. -/
theorem slot_eq_and_children_eq (budget : Nat) :
    (∀ parent session done todo n fallback,
      Walk.slot h ctx parent budget session (done ++ n :: todo) done.length fallback =
        (visit h ctx parent budget session done n todo fallback).map Visit.visited) ∧
    (∀ parent session done todo fallback,
      Walk.children h ctx parent budget session (done ++ todo) done.length fallback =
        (walk h ctx parent budget session done todo fallback).map Tour.walked) := by
  induction budget with
  | zero => exact ⟨fun _ _ _ _ _ _ => rfl, fun _ _ _ _ _ => rfl⟩
  | succ budget ih => exact ⟨slot_eq_step h ctx ih.2, children_eq_step h ctx ih.1 ih.2⟩

/-! ### The calls -/

/-- The result of a call on the handler that keeps a list of its calls. -/
def Met.record (m : Met σ) (calls : List Call) : Met (σ × List Call) :=
  ⟨m.session.record calls, m.zipper, m.outcome⟩

/-- The result of a visit by the handler that keeps a list of its calls. -/
def Visit.record (v : Visit σ) (before : List Call) : Visit (σ × List Call) :=
  ⟨v.session.record (before ++ v.calls), v.zipper, v.flow, v.calls⟩

/-- The result of a walk over a list by the handler that keeps a list of its calls. -/
def Tour.record (w : Tour σ) (before : List Call) : Tour (σ × List Call) :=
  ⟨w.session.record (before ++ w.calls), w.nodes, w.flow, w.calls⟩

theorem call_recorded (phase : Phase) (session : Session σ) (before : List Call) (z : Zipper)
    (parent : Option Parent) (span : Span) :
    call (recorded h) ctx phase (session.record before) z parent span =
      (call h ctx phase session z parent span).record
        (before ++ [Call.on phase z parent]) := by
  have shown : (⟨phase, (z.cursor parent).node?, (z.cursor parent).parent,
      (z.cursor parent).index?⟩ : Call) = Call.on phase z parent := by
    rw [Zipper.node?_cursor]
    rfl
  simp only [call, recorded, Session.record, shown]
  cases (h ctx phase (z.cursor parent) session.state).outcome <;> rfl

/-- One more level of budget for the calls of the visit of a node. -/
theorem visit_recorded_step {budget : Nat}
    (ih : ∀ parent session before done todo fallback,
      walk (recorded h) ctx parent budget (session.record before) done todo fallback =
        (walk h ctx parent budget session done todo fallback).map (Tour.record · before))
    (parent : Option Parent) (session : Session σ) (before : List Call) (done todo : List Node)
    (n : Node) (fallback : Span) :
    visit (recorded h) ctx parent (budget + 1) (session.record before) done n todo fallback =
      (visit h ctx parent (budget + 1) session done n todo fallback).map
        (Visit.record · before) := by
  rw [visit_succ, visit_succ]
  simp only [call_recorded]
  generalize call h ctx .pre session ⟨done, some n, todo⟩ parent (n.span.orElse fallback) = pre
  obtain ⟨session', ⟨done', node?, todo'⟩, outcome⟩ := pre
  simp only [Met.record]
  cases outcome with
  | error f => cases node? <;> rfl
  | ok verdict =>
      cases node? with
      | none => cases verdict <;> rfl
      | some m =>
          cases verdict with
          | stop => rfl
          | skipChildren =>
              simp only [call_recorded, List.append_assoc, Option.map_some]
              rfl
          | «continue» =>
              simp only [ih]
              cases walk h ctx (Parent.of m) budget session' [] m.children
                (m.span.orElse (n.span.orElse fallback)) with
              | none => rfl
              | some w =>
                  obtain ⟨session'', nodes, flow, calls⟩ := w
                  cases flow with
                  | next =>
                      simp only [Option.map_some, Tour.record, call_recorded, List.append_assoc]
                      rfl
                  | stop =>
                      simp only [Option.map_some, Tour.record, List.append_assoc]
                      rfl
                  | failed f =>
                      simp only [Option.map_some, Tour.record, List.append_assoc]
                      rfl

/-- One more level of budget for the calls of the walk over a list. -/
theorem walk_recorded_step {budget : Nat}
    (visits : ∀ parent session before done todo n fallback,
      visit (recorded h) ctx parent budget (session.record before) done n todo fallback =
        (visit h ctx parent budget session done n todo fallback).map (Visit.record · before))
    (ih : ∀ parent session before done todo fallback,
      walk (recorded h) ctx parent budget (session.record before) done todo fallback =
        (walk h ctx parent budget session done todo fallback).map (Tour.record · before))
    (parent : Parent) (session : Session σ) (before : List Call) (done todo : List Node)
    (fallback : Span) :
    walk (recorded h) ctx parent (budget + 1) (session.record before) done todo fallback =
      (walk h ctx parent (budget + 1) session done todo fallback).map (Tour.record · before) := by
  cases todo with
  | nil => simp [walk, Tour.record]
  | cons n todo =>
      rw [walk, walk, visits]
      cases visit h ctx (some parent) budget session done n todo fallback with
      | none => rfl
      | some v =>
          obtain ⟨session', zipper, flow, calls⟩ := v
          cases flow with
          | stop => rfl
          | failed f => rfl
          | next =>
              simp only [Option.map_some, Visit.record, ih, Option.map_map]
              congr 1
              funext w
              simp only [Function.comp_apply, Tour.record, List.append_assoc]

/-- A handler that keeps a list of its calls walks as it does without the list, and the list
grows by the calls of the walk. -/
theorem visit_recorded_and_walk_recorded (budget : Nat) :
    (∀ parent session before done todo n fallback,
      visit (recorded h) ctx parent budget (session.record before) done n todo fallback =
        (visit h ctx parent budget session done n todo fallback).map (Visit.record · before)) ∧
    (∀ parent session before done todo fallback,
      walk (recorded h) ctx parent budget (session.record before) done todo fallback =
        (walk h ctx parent budget session done todo fallback).map (Tour.record · before)) := by
  induction budget with
  | zero =>
      refine ⟨fun _ _ _ _ _ _ _ => rfl, ?_⟩
      intro parent session before done todo fallback
      rw [walk, walk]
      rfl
  | succ budget ih =>
      exact ⟨visit_recorded_step h ctx ih.2, walk_recorded_step h ctx ih.1 ih.2⟩

end ZipperWalk

end Graft
