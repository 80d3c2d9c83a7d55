import Graft.Expansion

/-!
# Budgets do not matter to results

A walk that ends within its budget ends in the same way within every larger budget, and so does an
expansion. So a result says what the walk does; the budget only says that it ended.
-/

namespace Graft

variable {σ : Type}

namespace Walk

variable {h : Handler σ} {ctx : Context} {budget budget' : Nat}

/-- One more level of budget for the walk over a place. -/
theorem slot_succ_step
    (below : ∀ parent session slots place fallback w,
      children h ctx parent budget session slots place fallback = some w →
        children h ctx parent (budget + 1) session slots place fallback = some w)
    (parent : Option Parent) (session : Session σ) (slots : List Node) (place : Nat)
    (fallback : Span) (v : Visited σ)
    (ran : slot h ctx parent (budget + 1) session slots place fallback = some v) :
    slot h ctx parent (budget + 2) session slots place fallback = some v := by
  rw [slot] at ran ⊢
  cases here : slots[place]? with
  | none =>
      simp only [here] at ran ⊢
      exact ran
  | some n =>
      simp only [here] at ran ⊢
      generalize call h ctx .pre session slots place parent (n.span.orElse fallback) = c
        at ran ⊢
      cases outcome : c.outcome with
      | error f =>
          simp only [outcome] at ran ⊢
          exact ran
      | ok verdict =>
          cases stands : c.cursor.node? with
          | none =>
              cases verdict <;> simp only [outcome, stands] at ran ⊢ <;> exact ran
          | some m =>
              cases verdict with
              | stop =>
                  simp only [outcome, stands] at ran ⊢
                  exact ran
              | skipChildren =>
                  simp only [outcome, stands] at ran ⊢
                  exact ran
              | «continue» =>
                  simp only [outcome, stands] at ran ⊢
                  cases walked : children h ctx (Parent.of m) budget c.session m.children 0
                    (m.span.orElse (n.span.orElse fallback)) with
                  | none => simp [walked] at ran
                  | some w =>
                      rw [below _ _ _ _ _ _ walked]
                      simp only [walked] at ran
                      exact ran

/-- One more level of budget for the walk over a child list. -/
theorem children_succ_step
    (places : ∀ parent session slots place fallback v,
      slot h ctx parent budget session slots place fallback = some v →
        slot h ctx parent (budget + 1) session slots place fallback = some v)
    (later : ∀ parent session slots place fallback w,
      children h ctx parent budget session slots place fallback = some w →
        children h ctx parent (budget + 1) session slots place fallback = some w)
    (parent : Parent) (session : Session σ) (slots : List Node) (place : Nat) (fallback : Span)
    (w : Walked σ)
    (ran : children h ctx parent (budget + 1) session slots place fallback = some w) :
    children h ctx parent (budget + 2) session slots place fallback = some w := by
  rw [children] at ran ⊢
  by_cases inside : place < slots.length
  · simp only [if_pos inside] at ran ⊢
    cases visited : slot h ctx (some parent) budget session slots place fallback with
    | none => simp [visited] at ran
    | some v =>
        rw [places _ _ _ _ _ _ visited]
        simp only [visited] at ran ⊢
        cases flow : v.flow with
        | next =>
            simp only [flow] at ran ⊢
            exact later _ _ _ _ _ _ ran
        | stop =>
            simp only [flow] at ran ⊢
            exact ran
        | failed f =>
            simp only [flow] at ran ⊢
            exact ran
  · simp only [if_neg inside] at ran ⊢
    exact ran

theorem slot_succ_and_children_succ (h : Handler σ) (ctx : Context) (budget : Nat) :
    (∀ parent session slots place fallback v,
      slot h ctx parent budget session slots place fallback = some v →
        slot h ctx parent (budget + 1) session slots place fallback = some v) ∧
    ∀ parent session slots place fallback w,
      children h ctx parent budget session slots place fallback = some w →
        children h ctx parent (budget + 1) session slots place fallback = some w := by
  induction budget with
  | zero =>
      constructor
      · intro parent session slots place fallback v ran
        simp [slot] at ran
      · intro parent session slots place fallback w ran
        simp [children] at ran
  | succ budget ih => exact ⟨slot_succ_step ih.2, children_succ_step ih.1 ih.2⟩

/-- A larger budget never changes the result of a walk from a place. -/
theorem runSlot_mono (le : budget ≤ budget') {session : Session σ} {slots : List Node}
    {place : Nat} {parent : Parent} {v : Visited σ}
    (ran : runSlot h ctx budget session slots place parent = some v) :
    runSlot h ctx budget' session slots place parent = some v := by
  induction le with
  | refl => exact ran
  | step _ ih => exact (slot_succ_and_children_succ h ctx _).1 _ _ _ _ _ _ ih

/-- A larger budget never changes the result of a walk over a root. -/
theorem run_mono (le : budget ≤ budget') {session : Session σ} {root : Node} {r : Rooted σ}
    (ran : run h ctx budget session root = some r) : run h ctx budget' session root = some r := by
  induction le with
  | refl => exact ran
  | step _ ih =>
      obtain ⟨v, visited, rfl⟩ := Option.map_eq_some_iff.mp ih
      rw [run, (slot_succ_and_children_succ h ctx _).1 _ _ _ _ _ _ visited]
      rfl

end Walk

namespace Expansion

variable {budget budget' : Nat}

theorem passes_mono (le : budget ≤ budget') {source : SourceText} {directives unit : Directives}
    {parent : Parent} {handlers : List (String × Handler σ)} {session : Session σ}
    {items : List Node} {place applied : Nat} {done : ItemDone σ}
    (ran : passes source directives unit parent budget handlers session items place applied =
      some done) :
    passes source directives unit parent budget' handlers session items place applied =
      some done := by
  induction handlers generalizing session items place applied with
  | nil => exact ran
  | cons e handlers ih =>
      obtain ⟨name, h⟩ := e
      rw [passes] at ran ⊢
      cases walked : Walk.runSlot h ⟨source, directives, unit, name⟩ budget session items place
        parent with
      | none => simp [walked] at ran
      | some v =>
          rw [Walk.runSlot_mono le walked]
          simp only [walked] at ran ⊢
          cases flow : v.flow with
          | failed f =>
              simp only [flow] at ran ⊢
              exact ran
          | stop =>
              simp only [flow] at ran ⊢
              exact ran
          | next =>
              cases position : v.position with
              | none =>
                  simp only [flow, position] at ran ⊢
                  exact ran
              | some place' =>
                  simp only [flow, position] at ran ⊢
                  exact ih ran

/-- **Budgets.** A larger budget never changes the result of an expansion. -/
theorem run_mono (le : budget ≤ budget') {registry : Registry (Handler σ)} {session : Session σ}
    {u : SourceUnit} {result : Expanded σ} (ran : run registry budget session u = some result) :
    run registry budget' session u = some result := by
  rw [run] at ran ⊢
  generalize u.items.length = remaining at ran ⊢
  generalize u.items = items at ran ⊢
  generalize 0 = applied at ran ⊢
  induction remaining generalizing session items applied with
  | zero => exact ran
  | succ remaining ih =>
      rw [itemsFromEnd] at ran ⊢
      split at ran
      · cases ran
      · next done finished =>
          rw [passes_mono le finished]
          simp only
          cases ended : done.ended with
          | some ending =>
              simp only [ended] at ran ⊢
              exact ran
          | none =>
              simp only [ended] at ran ⊢
              exact ih done.items done.applied ran

end Expansion

end Graft
