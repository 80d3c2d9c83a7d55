import Graft.Walk

/-!
# Walks seen through a map of states

A handler can keep more in its state than another handler that answers alike, or less. If the
answers of one handler, with their states seen through a map, are those of another, then so are its
walks: the same calls are made on the same nodes, and the sessions correspond under the map.

Two such maps are of use. A handler that also keeps a list of its calls maps to the handler
without the list, so that the list can be talked about. A handler whose answers do not depend on
its state maps to one without any state, so that its walks do not depend on it either.
-/

namespace Graft

variable {σ τ : Type}

/-- An answer, with its state seen through a map. -/
def Reply.map (π : σ → τ) (r : Reply σ) : Reply τ := ⟨π r.state, r.edits, r.notices, r.outcome⟩

/-- A session, with its state seen through a map. -/
def Session.map (π : σ → τ) (s : Session σ) : Session τ := ⟨π s.state, s.reports, s.visits⟩

def Visited.map (π : σ → τ) (v : Visited σ) : Visited τ := { v with session := v.session.map π }

def Walked.map (π : σ → τ) (w : Walked σ) : Walked τ := { w with session := w.session.map π }

def Called.map (π : σ → τ) (c : Called σ) : Called τ := { c with session := c.session.map π }

/-- The answers of a handler, seen through a map, are those of another one. -/
def Handler.Projects (π : σ → τ) (h : Handler σ) (h' : Handler τ) : Prop :=
  ∀ ctx phase c s, h' ctx phase c (π s) = (h ctx phase c s).map π

namespace Walk

def Rooted.map (π : σ → τ) (r : Rooted σ) : Rooted τ := { r with session := r.session.map π }

variable {π : σ → τ} {h : Handler σ} {h' : Handler τ} {ctx : Context} {budget : Nat}

@[simp] theorem leave_map (c : Called σ) : Called.leave (c.map π) = (Called.leave c).map π := by
  obtain ⟨session, cursor, _ | verdict⟩ := c <;> rfl

theorem call_map (projects : h.Projects π h') (ctx : Context) (phase : Phase)
    (session : Session σ) (slots : List Node) (place : Nat) (parent : Option Parent)
    (span : Span) :
    call h' ctx phase (session.map π) slots place parent span =
      (call h ctx phase session slots place parent span).map π := by
  have answer := projects ctx phase (Cursor.bind slots place parent) session.state
  simp only [call, Session.map, answer, Reply.map]
  cases (h ctx phase (Cursor.bind slots place parent) session.state).outcome <;> rfl

/-- One more level of budget for the walk over a place. -/
theorem slot_map_step (projects : h.Projects π h')
    (below : ∀ parent session slots place fallback,
      children h' ctx parent budget (session.map π) slots place fallback =
        (children h ctx parent budget session slots place fallback).map (Walked.map π))
    (parent : Option Parent) (session : Session σ) (slots : List Node) (place : Nat)
    (fallback : Span) :
    slot h' ctx parent (budget + 1) (session.map π) slots place fallback =
      (slot h ctx parent (budget + 1) session slots place fallback).map (Visited.map π) := by
  rw [slot, slot]
  cases slots[place]? with
  | none => rfl
  | some n =>
      simp only [call_map projects]
      generalize call h ctx .pre session slots place parent (n.span.orElse fallback) = c
      obtain ⟨session, cursor, outcome⟩ := c
      simp only [Called.map]
      cases outcome with
      | error f => cases cursor.node? <;> rfl
      | ok verdict =>
          cases cursor.node? with
          | none => cases verdict <;> rfl
          | some m =>
              cases verdict with
              | stop => rfl
              | skipChildren => simp only [call_map projects, leave_map, Option.map_some]
              | «continue» =>
                  simp only [below]
                  cases children h ctx (Parent.of m) budget session m.children 0
                    (m.span.orElse (n.span.orElse fallback)) with
                  | none => rfl
                  | some w =>
                      obtain ⟨session', slots', flow⟩ := w
                      cases flow with
                      | next =>
                          simp only [Option.map_some, Walked.map, call_map projects, leave_map]
                      | stop => rfl
                      | failed f => rfl

/-- One more level of budget for the walk over a child list. -/
theorem children_map_step
    (places : ∀ parent session slots place fallback,
      slot h' ctx parent budget (session.map π) slots place fallback =
        (slot h ctx parent budget session slots place fallback).map (Visited.map π))
    (later : ∀ parent session slots place fallback,
      children h' ctx parent budget (session.map π) slots place fallback =
        (children h ctx parent budget session slots place fallback).map (Walked.map π))
    (parent : Parent) (session : Session σ) (slots : List Node) (place : Nat) (fallback : Span) :
    children h' ctx parent (budget + 1) (session.map π) slots place fallback =
      (children h ctx parent (budget + 1) session slots place fallback).map (Walked.map π) := by
  rw [children, children]
  by_cases inside : place < slots.length
  · simp only [if_pos inside, places]
    cases slot h ctx (some parent) budget session slots place fallback with
    | none => rfl
    | some v =>
        obtain ⟨session', slots', flow, position, next⟩ := v
        cases flow with
        | next => simp only [Option.map_some, Visited.map, later]
        | stop => rfl
        | failed f => rfl
  · simp only [if_neg inside]
    rfl

/-- The walks of the two handlers correspond. The induction is on the budget, for both functions
at once. -/
theorem slot_map_and_children_map (projects : h.Projects π h') (ctx : Context) (budget : Nat) :
    (∀ parent session slots place fallback,
      slot h' ctx parent budget (session.map π) slots place fallback =
        (slot h ctx parent budget session slots place fallback).map (Visited.map π)) ∧
    ∀ parent session slots place fallback,
      children h' ctx parent budget (session.map π) slots place fallback =
        (children h ctx parent budget session slots place fallback).map (Walked.map π) := by
  induction budget with
  | zero =>
      refine ⟨fun _ _ _ _ _ => ?_, fun _ _ _ _ _ => ?_⟩
      · rw [slot, slot, Option.map_none]
      · rw [children, children, Option.map_none]
  | succ budget ih => exact ⟨slot_map_step projects ih.2, children_map_step ih.1 ih.2⟩

theorem runSlot_map (projects : h.Projects π h') (ctx : Context) (budget : Nat)
    (session : Session σ) (slots : List Node) (place : Nat) (parent : Parent) :
    runSlot h' ctx budget (session.map π) slots place parent =
      (runSlot h ctx budget session slots place parent).map (Visited.map π) :=
  (slot_map_and_children_map projects ctx budget).1 (some parent) session slots place parent.span

theorem run_map (projects : h.Projects π h') (ctx : Context) (budget : Nat)
    (session : Session σ) (root : Node) :
    run h' ctx budget (session.map π) root =
      (run h ctx budget session root).map (Rooted.map π) := by
  rw [run, run, (slot_map_and_children_map projects ctx budget).1, Option.map_map, Option.map_map]
  rfl

end Walk

end Graft
