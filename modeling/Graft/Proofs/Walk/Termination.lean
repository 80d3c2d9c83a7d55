import Graft.Proofs.Walk.Budget
import Graft.Proofs.Walk.Insertions

/-!
# Walks that end

A walk need not end: a handler can insert a node behind every node that it is called on, or wrap
every node in a new list before its children are walked. Without insertions behind the bound node,
and if the first call on a node leaves no larger tree in its place, there is a measure. Nothing is
ever added to the nodes that a list still has to do, so their number goes down. What a handler
inserts before a node, what it deletes and all that it makes of a node in the second call on it
concerns nodes that are done.

`Handler.Shrinks` names the condition and `ZipperWalk.visitEnds_and_walkEnds` is the induction, on
the budget: twice the number of nodes is enough budget, and as many calls are made at most. It is
stated for roots in `Walk.run_ends`. A handler that wraps every node shows that the first calls
have to be bounded, `Walk.run_wrapping`.
-/

namespace Graft

variable {σ : Type}

/-- A handler that inserts nothing behind the bound node and leaves at most as many nodes in its
place in the first call on it, in every state with a property that its calls keep. -/
structure Handler.Shrinks (h : Handler σ) (ctx : Context) (p : σ → Prop) : Prop where
  state : ∀ phase (c : Cursor) s n, c.node? = some n → p s → p (h ctx phase c s).state
  behind : ∀ phase (c : Cursor) s n, c.node? = some n → p s →
    ∀ m, .insertAfter m ∉ (h ctx phase c s).edits
  size : ∀ (c : Cursor) s (n : Node), c.node? = some n → p s →
    ∀ m, (c.apply (h ctx .pre c s).edits).node? = some m → m.size ≤ n.size

/-- The state has the property still, and at most this many calls were made. -/
structure Session.Within (p : σ → Prop) (before after : Session σ) (calls : Nat) : Prop where
  state : p after.state
  visits : after.visits ≤ before.visits + calls

namespace Session.Within

variable {p : σ → Prop} {first second third : Session σ} {calls calls' : Nat}

theorem trans (before : Within p first second calls) (after : Within p second third calls') :
    Within p first third (calls + calls') := by
  refine ⟨after.state, ?_⟩
  have := before.visits
  have := after.visits
  omega

theorem mono (within : Within p first second calls) (le : calls ≤ calls') :
    Within p first second calls' :=
  ⟨within.state, Nat.le_trans within.visits (Nat.add_le_add_left le _)⟩

end Session.Within

/-- Edits that insert nothing behind a place leave the nodes behind it as they were. -/
theorem Zipper.todo_apply (inList : Bool) (z : Zipper) {edits : List Edit}
    (none : ∀ m, .insertAfter m ∉ edits) : (z.apply inList edits).todo = z.todo := by
  obtain ⟨behind, grown, inserted⟩ := (Zipper.grown_apply inList z edits).after
  cases behind with
  | nil => exact grown
  | cons m behind => exact absurd (inserted m List.mem_cons_self) (none m)

namespace ZipperWalk

open Node (sizeAll)

variable {h : Handler σ} {ctx : Context} {p : σ → Prop} {budget : Nat}

/-- What a call on a node leaves: nothing new behind the place, and after the first call at most as
many nodes in it. -/
structure CallShrinks (p : σ → Prop) (phase : Phase) (session : Session σ) (n : Node)
    (todo : List Node) (met : Met σ) : Prop where
  session : Session.Within p session met.session 1
  todo : met.zipper.todo = todo
  size : phase = .pre → ∀ m, met.zipper.node? = some m → m.size ≤ n.size

theorem call_shrinks (shrinks : h.Shrinks ctx p) (phase : Phase) {session : Session σ}
    (held : p session.state) {z : Zipper} (parent : Option Parent) (span : Span) {n : Node}
    (here : z.node? = some n) :
    CallShrinks p phase session n z.todo (call h ctx phase session z parent span) := by
  have bound : (z.cursor parent).node? = some n := (z.node?_cursor parent).trans here
  refine ⟨⟨?_, ?_⟩, ?_, ?_⟩
  · have kept := shrinks.state phase (z.cursor parent) session.state n bound held
    rw [call]
    split <;> exact kept
  · rw [call]
    split <;> exact Nat.le_refl _
  · rw [zipper_call]
    exact z.todo_apply _ (shrinks.behind phase (z.cursor parent) session.state n bound held)
  · rintro rfl m stands
    apply shrinks.size (z.cursor parent) session.state n bound held m
    rwa [Zipper.apply_cursor, Zipper.node?_cursor, ← zipper_call h ctx .pre session z parent span]

/-- Visits end within a budget of twice the number of nodes below the place, with as many calls at
most, and leave what is behind the place as it was. -/
def VisitEnds (h : Handler σ) (ctx : Context) (p : σ → Prop) (budget : Nat) : Prop :=
  ∀ parent session done n todo fallback, p session.state → 2 * n.size ≤ budget →
    ∃ v, visit h ctx parent budget session done n todo fallback = some v ∧
      Session.Within p session v.session (2 * n.size) ∧ v.zipper.todo = todo

/-- Walks over a list end within a budget of twice the number of nodes still to do, with as many
calls at most. -/
def WalkEnds (h : Handler σ) (ctx : Context) (p : σ → Prop) (budget : Nat) : Prop :=
  ∀ parent session done todo fallback, p session.state → 2 * sizeAll todo < budget →
    ∃ w, walk h ctx parent budget session done todo fallback = some w ∧
      Session.Within p session w.session (2 * sizeAll todo)

/-- One more level of budget for the visit of a node. -/
theorem visitEnds_step (shrinks : h.Shrinks ctx p) (below : WalkEnds h ctx p budget) :
    VisitEnds h ctx p (budget + 1) := by
  intro parent session done n todo fallback held enough
  have nonempty := n.size_pos
  have first := call_shrinks shrinks .pre held parent (n.span.orElse fallback)
    (z := ⟨done, some n, todo⟩) rfl
  rw [visit_succ]
  simp only
  generalize call h ctx .pre session ⟨done, some n, todo⟩ parent (n.span.orElse fallback) = pre
    at first ⊢
  have once : ∀ calls, Session.Within p session (pre.close calls).session (2 * n.size) :=
    fun calls => first.session.mono (by omega)
  cases outcome : pre.outcome with
  | error f => exact ⟨_, rfl, once _, first.todo⟩
  | ok verdict =>
      cases here : pre.zipper.node? with
      | none => cases verdict <;> exact ⟨_, rfl, once _, first.todo⟩
      | some m =>
          cases verdict with
          | stop => exact ⟨_, rfl, once _, first.todo⟩
          | skipChildren =>
              have second := call_shrinks shrinks .post first.session.state parent
                (n.span.orElse fallback) here
              exact ⟨_, rfl, (first.session.trans second.session).mono (by omega),
                second.todo.trans first.todo⟩
          | «continue» =>
              -- the walked children are those of the node that now stands in the place
              have smaller := first.size rfl m here
              have size := m.size_eq
              obtain ⟨w, walked, inner⟩ := below (Parent.of m) pre.session [] m.children
                (m.span.orElse (n.span.orElse fallback)) first.session.state (by omega)
              have both := first.session.trans inner
              simp only [walked]
              cases w.flow with
              | stop => exact ⟨_, rfl, both.mono (by omega), first.todo⟩
              | failed f => exact ⟨_, rfl, both.mono (by omega), first.todo⟩
              | next =>
                  have second := call_shrinks shrinks .post inner.state parent
                    (n.span.orElse fallback)
                    (z := pre.zipper.put { m with children := w.nodes }) rfl
                  exact ⟨_, rfl, (both.trans second.session).mono (by omega),
                    second.todo.trans first.todo⟩

/-- One more level of budget for the walk over a list. -/
theorem walkEnds_step (visits : VisitEnds h ctx p budget) (later : WalkEnds h ctx p budget) :
    WalkEnds h ctx p (budget + 1) := by
  intro parent session done todo fallback held enough
  cases todo with
  | nil => exact ⟨_, rfl, held, Nat.le_refl _⟩
  | cons n todo =>
      have nonempty := n.size_pos
      rw [Node.sizeAll_cons] at enough
      obtain ⟨v, visited, here, rest⟩ := visits (some parent) session done n todo fallback held
        (by omega)
      have whole : 2 * sizeAll (n :: todo) = 2 * n.size + 2 * sizeAll todo := by
        rw [Node.sizeAll_cons]
        omega
      rw [walk, whole]
      simp only [visited]
      cases v.flow with
      | stop => exact ⟨_, rfl, here.mono (Nat.le_add_right _ _)⟩
      | failed f => exact ⟨_, rfl, here.mono (Nat.le_add_right _ _)⟩
      | next =>
          obtain ⟨w, walked, others⟩ := later parent v.session
            (v.zipper.done ++ v.zipper.node?.toList) todo fallback here.state (by omega)
          rw [rest]
          simp only [walked]
          exact ⟨_, rfl, here.trans others⟩

/-- The induction is on the budget, for a visit and the walk over a list at once. -/
theorem visitEnds_and_walkEnds (shrinks : h.Shrinks ctx p) (budget : Nat) :
    VisitEnds h ctx p budget ∧ WalkEnds h ctx p budget := by
  induction budget with
  | zero =>
      constructor
      · intro parent session done n todo fallback held enough
        have nonempty := n.size_pos
        omega
      · intro parent session done todo fallback held enough
        omega
  | succ budget ih => exact ⟨visitEnds_step shrinks ih.2, walkEnds_step ih.1 ih.2⟩

end ZipperWalk

namespace Walk

/-- **Termination.** The walk of a handler that inserts nothing behind the bound node, and whose
first call on a node leaves at most as many nodes in its place, ends, whatever the second calls do.
It makes at most two calls for every node of the root that it starts with. -/
theorem run_ends {h : Handler σ} {ctx : Context} {p : σ → Prop} (shrinks : h.Shrinks ctx p)
    {session : Session σ} (held : p session.state) (root : Node) :
    ∃ r, (∀ budget, 2 * root.size ≤ budget → run h ctx budget session root = some r) ∧
      r.session.visits ≤ session.visits + 2 * root.size := by
  obtain ⟨v, visited, within, -⟩ :=
    (ZipperWalk.visitEnds_and_walkEnds shrinks (2 * root.size)).1 none session [] root [] .detached
      held (Nat.le_refl _)
  refine ⟨v.rooted root, fun budget enough => run_mono enough ?_, within.visits⟩
  rw [ZipperWalk.run_eq, visited, Option.map_some]

/-- Delete every statement and leave a name before it, and double every node after its children.
In the state `true`, insert nodes without end. -/
def doubling : Handler Bool := fun _ phase c endless =>
  let edits : List Edit :=
    match phase with
    | .pre =>
      if c.node?.any (·.kind = .stmt) then [.insertBefore (.ident "before"), .delete] else []
    | .post => [.insertBefore (.ident "before"), .modify fun n => .list .expr "twice" [n, n]]
  ⟨endless, if endless then [.insertAfter (.ident "after")] else edits, [], .ok .continue⟩

theorem shrinks_doubling (ctx : Context) : doubling.Shrinks ctx (· = false) := by
  refine ⟨fun _ _ _ _ _ held => held, ?_, ?_⟩
  · rintro phase c _ n here rfl m member
    simp only [doubling, Bool.false_eq_true, if_false] at member
    cases phase with
    | post => simp at member
    | pre => split at member <;> simp at member
  · rintro c _ n here rfl m stands
    obtain ⟨done, todo, on⟩ := Zipper.exists_of_node? here
    generalize c.parent = parent at on
    subst on
    rw [Zipper.apply_cursor, Zipper.node?_cursor] at stands
    simp only [doubling, Bool.false_eq_true, if_false] at stands
    have same : m = n := by
      split at stands
      · cases parent with
        | none => exact (Option.some.inj stands).symm
        | some owner => cases stands
      · exact (Option.some.inj stands).symm
    exact Nat.le_of_eq (congrArg Node.size same)

/-- A declaration with a name and a statement. -/
def stated : Node := .list .decl "fn" [.ident "X", .list .stmt "call" [.ident "Y"]]

theorem run_ends_stated :
    let ctx : Context := ⟨⟨⟨"a.rmc"⟩, ""⟩, ⟨[]⟩, ⟨[]⟩, "doubling"⟩
    doubling.Shrinks ctx (· = false) ∧
      ∃ r, (∀ budget, 8 ≤ budget → run doubling ctx budget ⟨false, [], 0⟩ stated = some r) ∧
        r.session.visits = 5 ∧ r.root.size = 13 := by
  intro ctx
  have shrinks := shrinks_doubling ctx
  have held : (⟨false, [], 0⟩ : Session Bool).state = false := rfl
  obtain ⟨r, ends, -⟩ := run_ends shrinks held stated
  have eight : 2 * stated.size = 8 := rfl
  rw [eight] at ends
  have here : (run doubling ctx 8 ⟨false, [], 0⟩ stated).map
      (fun r => (r.session.visits, r.root.size)) = some (5, 13) := by decide
  rw [ends 8 (Nat.le_refl _), Option.map_some, Option.some.injEq, Prod.mk.injEq] at here
  exact ⟨shrinks, r, ends, here⟩

/-- Wrap every node in a list before its children are walked. -/
def wrapping : Handler Unit := fun _ phase _ _ =>
  ⟨(), if phase = .pre then [.modify fun n => .list .expr "wrap" [n]] else [], [], .ok .continue⟩

theorem visit_wrapping (ctx : Context) (budget : Nat) (parent : Option Parent)
    (session : Session Unit) (done : List Node) (n : Node) (todo : List Node) (fallback : Span) :
    ZipperWalk.visit wrapping ctx parent budget session done n todo fallback = none := by
  rw [Option.eq_none_iff_forall_ne_some]
  induction budget using Nat.strongRecOn generalizing parent session done n todo fallback with
  | ind budget ih =>
      intro v visited
      cases budget with
      | zero => simp [ZipperWalk.visit] at visited
      | succ budget =>
          rcases ZipperWalk.visit_cases visited with
            ⟨-, gone | ended⟩ | ⟨m, skips, -⟩ | ⟨m, w, -, here, walked, -⟩
          · cases gone
          · exact ended rfl
          · cases skips
          · -- the children of the new list are the wrapped node alone
            cases here
            cases budget with
            | zero => simp [ZipperWalk.walk] at walked
            | succ budget =>
                rw [show (Node.list .expr "wrap" [n]).children = [n] from rfl,
                  ZipperWalk.walk] at walked
                split at walked
                · cases walked
                · next v' visited' => exact ih budget (by omega) _ _ _ _ _ _ v' visited'

/-- The first calls have to be bounded: a walk that wraps every node has no end, although nothing
is ever inserted. -/
theorem run_wrapping (ctx : Context) (budget : Nat) (session : Session Unit) (root : Node) :
    run wrapping ctx budget session root = none := by
  rw [ZipperWalk.run_eq, visit_wrapping, Option.map_none]

end Walk

end Graft
