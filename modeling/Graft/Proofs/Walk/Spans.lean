import Graft.Proofs.Tree.Placed
import Graft.Proofs.Walk.Insertions

/-!
# Spans in a walk

A failure whose fault has no place of its own gets the place of the visited node, or that of the
nearest node above it that has one, or the place that was passed on to the walk. Handlers can
exchange all of these nodes during the walk. `Edit.Keeps` says that the nodes an edit puts into a
tree have no places but those with a given property, `Handler.Keeps` that a handler asks for such
edits only. Then the places in the tree keep the property, and every failure, at any depth, is one
of a call that was given a place with it (`visit_anchored`). So the place of the failure has the
property (`visit_keeps`).

A handler that sets no spans keeps every property (`Handler.KeepsSpans.keeps`): the nodes that it
puts into a tree have no place, or are parts of the node it was called on.
-/

namespace Graft

variable {σ : Type}

/-- Every node of the tree is without a place, or has the place of a node of the given trees. -/
def Node.SpansFrom (m : Node) (ns : List Node) : Prop :=
  ∀ k ∈ m.preorder, k.span = .detached ∨ ∃ j ∈ preorderAll ns, j.span = k.span

/-- An edit in a call on the node `n` that sets no spans. -/
def Edit.SpansFrom (n : Node) : Edit → Prop
  | .delete => True
  | .replace m | .insertBefore m | .insertAfter m => m.SpansFrom [n]
  | .modify f => ∀ m, (f m).SpansFrom [m, n]

/-- A handler that sets no spans. -/
def Handler.KeepsSpans (h : Handler σ) : Prop :=
  ∀ ctx phase cursor state n, cursor.node? = some n →
    ∀ e ∈ (h ctx phase cursor state).edits, e.SpansFrom n

/-- An edit that puts only nodes into a tree that have the property. -/
def Edit.Keeps (p : Node → Prop) : Edit → Prop
  | .delete => True
  | .replace m | .insertBefore m | .insertAfter m => p m
  | .modify f => ∀ m, p m → p (f m)

/-- A handler that, in a call on a node with the property, puts only such nodes into the tree. -/
def Handler.Keeps (p : Node → Prop) (h : Handler σ) : Prop :=
  ∀ ctx phase cursor state n, cursor.node? = some n → p n →
    ∀ e ∈ (h ctx phase cursor state).edits, e.Keeps p

/-- A failure with a fault that has no place of its own has a place with the property. -/
def Flow.Points (P : Span → Prop) : Flow → Prop
  | .failed f => f.fault.span? = none → P f.span
  | .next | .stop => True

/-- A failure is that of a call which was given a place with the property. -/
def Flow.Anchored (ctx : Context) (P : Span → Prop) : Flow → Prop
  | .failed f => ∃ span, P span ∧ f = Walk.failure ctx span f.fault
  | .next | .stop => True

theorem Flow.Anchored.points {ctx : Context} {P : Span → Prop} {flow : Flow}
    (anchored : flow.Anchored ctx P) : flow.Points P := by
  cases flow with
  | next => trivial
  | stop => trivial
  | failed f =>
      intro placeless
      obtain ⟨span, given, failure⟩ := anchored
      rw [failure]
      simpa only [Walk.failure, placeless, Option.getD_none] using given

theorem Node.SpansFrom.within {m : Node} {ns : List Node} {P : Span → Prop}
    (spans : m.SpansFrom ns) (within : ∀ n ∈ ns, n.Within P) : m.Within P := by
  intro k member
  rcases spans k member with detached | ⟨j, below, same⟩
  · exact Or.inl (by rw [detached]; rfl)
  · obtain ⟨n, given, here⟩ := Node.mem_preorderAll.mp below
    rw [← same]
    exact within n given j here

namespace Zipper

variable {p : Node → Prop} {z z' z'' : Zipper}

/-- What is in the list and on the place keeps the property. -/
structure Keeps (p : Node → Prop) (z z' : Zipper) : Prop where
  done : (∀ n ∈ z.done, p n) → ∀ n ∈ z'.done, p n
  node : (∀ n, z.node? = some n → p n) → ∀ n, z'.node? = some n → p n
  todo : (∀ n ∈ z.todo, p n) → ∀ n ∈ z'.todo, p n

namespace Keeps

theorem refl (p : Node → Prop) (z : Zipper) : Keeps p z z := ⟨id, id, id⟩

theorem trans (first : Keeps p z z') (second : Keeps p z' z'') : Keeps p z z'' :=
  ⟨second.done ∘ first.done, second.node ∘ first.node, second.todo ∘ first.todo⟩

theorem put (z : Zipper) {n : Node} (holds : p n) : Keeps p z (z.put n) := by
  refine ⟨id, fun _ m here => ?_, id⟩
  cases here
  exact holds

end Keeps

theorem keeps_perform (inList : Bool) (z : Zipper) {e : Edit} (keeps : e.Keeps p) :
    Keeps p z (z.perform inList e) := by
  have same := Keeps.refl p z
  cases e with
  | replace m =>
      refine ⟨id, fun _ n here => ?_, id⟩
      obtain ⟨_, -, rfl⟩ := Option.map_eq_some_iff.mp here
      exact keeps
  | modify f =>
      refine ⟨id, fun held n here => ?_, id⟩
      obtain ⟨m, stands, rfl⟩ := Option.map_eq_some_iff.mp here
      exact keeps m (held m stands)
  | delete =>
      cases inList with
      | false => exact same
      | true =>
          refine ⟨id, fun _ n here => ?_, id⟩
          cases here
  | insertBefore m =>
      cases inList with
      | false => exact same
      | true =>
          refine ⟨fun held => ?_, id, id⟩
          have inserted : ∀ n ∈ [m], p n := List.forall_mem_singleton.mpr keeps
          exact List.forall_mem_append.mpr ⟨held, inserted⟩
  | insertAfter m =>
      cases inList with
      | false => exact same
      | true => exact ⟨id, id, fun held => List.forall_mem_cons.mpr ⟨keeps, held⟩⟩

theorem keeps_apply (inList : Bool) (z : Zipper) {edits : List Edit}
    (keeps : ∀ e ∈ edits, e.Keeps p) : Keeps p z (z.apply inList edits) := by
  induction edits generalizing z with
  | nil => exact Keeps.refl p z
  | cons e edits ih =>
      obtain ⟨first, others⟩ := List.forall_mem_cons.mp keeps
      exact (keeps_perform inList z first).trans (ih (z.perform inList e) others)

/-- The whole list has the property. -/
theorem Keeps.nodes (keeps : Keeps p z z') (held : ∀ n ∈ z.nodes, p n) : ∀ n ∈ z'.nodes, p n := by
  simp only [Zipper.nodes, List.forall_mem_append, Option.mem_toList] at held ⊢
  exact ⟨keeps.done held.1, keeps.node held.2.1, keeps.todo held.2.2⟩

end Zipper

/-- A handler that sets no spans keeps every property of places. -/
theorem Handler.KeepsSpans.keeps {h : Handler σ} (spans : h.KeepsSpans) (P : Span → Prop) :
    h.Keeps (Node.Within P) := by
  intro ctx phase cursor state n here within e member
  have source := spans ctx phase cursor state n here e member
  have alone : ∀ n' ∈ [n], n'.Within P := by simpa using within
  cases e with
  | delete => trivial
  | replace m => exact source.within alone
  | insertBefore m => exact source.within alone
  | insertAfter m => exact source.within alone
  | modify f =>
      intro m held
      exact (source m).within (List.forall_mem_cons.mpr ⟨held, alone⟩)

namespace ZipperWalk

variable {h : Handler σ} {ctx : Context} {P : Span → Prop} {budget : Nat}

/-- A call on a node with the property keeps the property. -/
theorem call_keeps {p : Node → Prop} (keeps : h.Keeps p) (phase : Phase) (session : Session σ)
    {z : Zipper} (parent : Option Parent) (span : Span) {n : Node} (here : z.node? = some n)
    (holds : p n) : z.Keeps p (call h ctx phase session z parent span).zipper := by
  rw [zipper_call]
  apply Zipper.keeps_apply
  exact keeps ctx phase (z.cursor parent) session.state n ((z.node?_cursor parent).trans here) holds

/-- The failure of a call is anchored at the place that the call was given. -/
theorem call_anchored (phase : Phase) (session : Session σ) (z : Zipper) (parent : Option Parent)
    {span : Span} (given : P span) :
    (flowOf (call h ctx phase session z parent span).outcome).Anchored ctx P := by
  simp only [call]
  cases (h ctx phase (z.cursor parent) session.state).outcome with
  | ok verdict => cases verdict <;> trivial
  | error fault => exact ⟨span, given, rfl⟩

/-- What a visit keeps: the places in the list and on the node, and with them that at which a
failure is anchored. -/
def VisitKeeps (h : Handler σ) (ctx : Context) (P : Span → Prop) (budget : Nat) : Prop :=
  ∀ parent session done n todo fallback v,
    visit h ctx parent budget session done n todo fallback = some v → n.Within P →
      Zipper.Keeps (Node.Within P) ⟨done, some n, todo⟩ v.zipper ∧
      (P (n.span.orElse fallback) → v.flow.Anchored ctx P)

/-- What a walk over a list keeps. -/
def WalkKeeps (h : Handler σ) (ctx : Context) (P : Span → Prop) (budget : Nat) : Prop :=
  ∀ parent session done todo fallback w,
    walk h ctx parent budget session done todo fallback = some w →
      (∀ n ∈ done, n.Within P) → (∀ n ∈ todo, n.Within P) →
      (∀ n ∈ w.nodes, n.Within P) ∧ (P fallback → w.flow.Anchored ctx P)

/-- One more level of budget for the visit of a node. -/
theorem visitKeeps_step (keeps : h.Keeps (Node.Within P)) (ih : WalkKeeps h ctx P budget) :
    VisitKeeps h ctx P (budget + 1) := by
  intro parent session done n todo fallback v visited within
  have ways := visit_cases visited
  have first : Zipper.Keeps (Node.Within P) ⟨done, some n, todo⟩
      (call h ctx .pre session ⟨done, some n, todo⟩ parent (n.span.orElse fallback)).zipper :=
    call_keeps keeps .pre session parent _ rfl within
  have anchored : P (n.span.orElse fallback) →
      (flowOf (call h ctx .pre session ⟨done, some n, todo⟩ parent
        (n.span.orElse fallback)).outcome).Anchored ctx P :=
    call_anchored .pre session ⟨done, some n, todo⟩ parent
  simp only at ways
  generalize call h ctx .pre session ⟨done, some n, todo⟩ parent (n.span.orElse fallback) =
    pre at first anchored ways
  have held : ∀ m, pre.zipper.node? = some m → m.Within P :=
    first.node fun m here => by cases here; exact within
  rcases ways with ⟨rfl, -⟩ | ⟨m, -, here, rfl⟩ | ⟨m, w, -, here, walked, ends⟩
  · exact ⟨first, anchored⟩
  · exact ⟨first.trans (call_keeps keeps .post pre.session parent _ here (held m here)),
      fun given => call_anchored .post pre.session pre.zipper parent given⟩
  · have inner := (Node.within_iff.mp (held m here)).2
    obtain ⟨nodes, below⟩ := ih _ _ _ _ _ _ walked (by simp) inner
    have node := (held m here).withChildren nodes
    have put := first.trans (Zipper.Keeps.put pre.zipper node)
    rcases ends with ⟨-, rfl⟩ | ⟨-, rfl⟩
    · exact ⟨put, fun given => below ((held m here).orElse given)⟩
    · exact ⟨put.trans (call_keeps keeps .post w.session parent _ rfl node),
        fun given => call_anchored .post w.session _ parent given⟩

/-- One more level of budget for the walk over a list. -/
theorem walkKeeps_step (visits : VisitKeeps h ctx P budget) (ih : WalkKeeps h ctx P budget) :
    WalkKeeps h ctx P (budget + 1) := by
  intro parent session done todo fallback w walked before after
  cases todo with
  | nil =>
      rw [walk] at walked
      cases walked
      exact ⟨before, fun _ => trivial⟩
  | cons n todo =>
      obtain ⟨within, others⟩ := List.forall_mem_cons.mp after
      rw [walk] at walked
      cases visited : visit h ctx (some parent) budget session done n todo fallback with
      | none => simp [visited] at walked
      | some v =>
          obtain ⟨kept, anchored⟩ := visits _ _ _ _ _ _ _ visited within
          have whole : ∀ m ∈ (⟨done, some n, todo⟩ : Zipper).nodes, m.Within P := by
            rw [Zipper.nodes_some]
            exact List.forall_mem_append.mpr ⟨before, after⟩
          have nodes := kept.nodes whole
          have flow := fun given => anchored (within.orElse given)
          simp only [visited] at walked
          cases ends : v.flow with
          | next =>
              simp only [ends] at walked
              obtain ⟨w', walked', rfl⟩ := Option.map_eq_some_iff.mp walked
              simp only [Zipper.nodes, ← List.append_assoc] at nodes
              obtain ⟨first, last⟩ := List.forall_mem_append.mp nodes
              have later := ih _ _ _ _ _ _ walked' first last
              exact ⟨later.1, later.2⟩
          | stop =>
              simp only [ends] at walked
              cases walked
              exact ⟨nodes, fun _ => trivial⟩
          | failed f =>
              simp only [ends] at walked flow
              cases walked
              exact ⟨nodes, flow⟩

/-- The induction is on the budget, for a visit and the walk over a list at once. -/
theorem visitKeeps_and_walkKeeps (ctx : Context) (keeps : h.Keeps (Node.Within P)) (budget : Nat) :
    VisitKeeps h ctx P budget ∧ WalkKeeps h ctx P budget := by
  induction budget with
  | zero =>
      refine ⟨fun _ _ _ _ _ _ _ visited => ?_, fun _ _ _ _ _ _ walked => ?_⟩
      · simp [visit] at visited
      · simp [walk] at walked
  | succ budget ih => exact ⟨visitKeeps_step keeps ih.2, walkKeeps_step ih.1 ih.2⟩

/-- If all places in the visited tree have a property, and the handler puts no node with another
place into a tree, then a failure of the visit is anchored at a place with the property, if the
visit starts with one. -/
theorem visit_anchored (keeps : h.Keeps (Node.Within P)) {parent : Option Parent}
    {session : Session σ} {done todo : List Node} {n : Node} {fallback : Span} {v : Visit σ}
    (visited : visit h ctx parent budget session done n todo fallback = some v)
    (within : n.Within P) (given : P (n.span.orElse fallback)) : v.flow.Anchored ctx P :=
  ((visitKeeps_and_walkKeeps ctx keeps budget).1 _ _ _ _ _ _ _ visited within).2 given

/-- **Places of failures.** If all places in the visited tree have a property, and the handler puts
no node with another place into a tree, then the places on the node and next to it have the property
after the visit. If the place that the visit starts with has it as well, the place of a failure
does. -/
theorem visit_keeps (keeps : h.Keeps (Node.Within P)) {parent : Option Parent}
    {session : Session σ} {done todo : List Node} {n : Node} {fallback : Span} {v : Visit σ}
    (visited : visit h ctx parent budget session done n todo fallback = some v)
    (within : n.Within P) :
    Zipper.Keeps (Node.Within P) ⟨done, some n, todo⟩ v.zipper ∧
      (P (n.span.orElse fallback) → v.flow.Points P) :=
  ⟨((visitKeeps_and_walkKeeps ctx keeps budget).1 _ _ _ _ _ _ _ visited within).1,
    fun given => (visit_anchored keeps visited within given).points⟩

end ZipperWalk

end Graft
