import Graft.Proofs.Expansion.Projection
import Graft.Proofs.Walk.Ending
import Graft.Run

/-!
# What ends an expansion

The passes of an expansion are walks one after the other, and the first that stops or fails is the
last. So what `Account` says of the calls of one walk holds of the calls of a whole expansion,
whichever handlers they are calls of and whichever items they are on: `ending_of_calls`. A failure
of an expansion becomes the error of the unit that the failed pass was over.
-/

namespace Graft

variable {σ : Type}

/-- The end of an expansion as that of its last walk. -/
def Ending.flow : Ending → Flow
  | .completed => .next
  | .stopped => .stop
  | .failed f => .failed f

namespace Expansion

def Outcome.traced (o : Outcome σ) (events : List Event) : Outcome (σ × List Event) :=
  { o with session := o.session.traced events }

/-- How things go on after the passes over an item. -/
def ItemDone.flow (d : ItemDone σ) : Flow :=
  match d.ended with
  | none => .next
  | some ending => ending.flow

variable {budget : Nat} {source : SourceText}

theorem passes_leads {directives unit : Directives} {parent : Parent}
    (handlers : List (String × Handler σ)) {session : Session (σ × List Event)}
    {items : List Node} {place applied : Nat} {done : ItemDone (σ × List Event)}
    (ran : passes source directives unit parent budget (mapEntries traced handlers) session items
      place applied = some done) : Leads source session done.session done.flow := by
  induction handlers generalizing session items place applied with
  | nil =>
      cases ran
      exact .refl _ _
  | cons e handlers ih =>
      simp only [mapEntries, List.map_cons] at ran ih
      rw [passes] at ran
      cases walked : Walk.runSlot (traced e.2) ⟨source, directives, unit, e.1⟩ budget session items
        place parent with
      | none => simp [walked] at ran
      | some v =>
          have here := Walk.runSlot_leads walked
          simp only [walked] at ran here
          cases flow : v.flow with
          | failed f =>
              simp only [flow] at ran here
              cases ran
              exact here
          | stop =>
              simp only [flow] at ran here
              cases ran
              exact here
          | next =>
              simp only [flow] at ran here
              cases position : v.position with
              | none =>
                  simp only [position] at ran
                  cases ran
                  exact here
              | some place' =>
                  simp only [position] at ran
                  exact here.trans (ih ran)

theorem itemsFromEnd_leads {registry : Registry (Handler σ)} {unit : Directives} {parent : Parent}
    {remaining : Nat} {session : Session (σ × List Event)} {items : List Node} {applied : Nat}
    {e : Expanded (σ × List Event)}
    (ran : itemsFromEnd (registry.map traced) source unit parent budget remaining session items
      applied = some e) : Leads source session e.session e.ending.flow := by
  induction remaining generalizing session items applied with
  | zero =>
      cases ran
      exact .refl _ _
  | succ remaining ih =>
      rw [itemsFromEnd] at ran
      simp only [Registry.getAsNamed_map, Registry.get_map, plan_map] at ran
      split at ran
      · cases ran
      · next done finished =>
          have here := passes_leads _ finished
          rw [ItemDone.flow] at here
          cases ended : done.ended with
          | some ending =>
              simp only [ended] at ran here
              cases ran
              exact here
          | none =>
              simp only [ended] at ran here
              exact here.trans (ih ran)

theorem expand_leads {registry : Registry (Handler σ)} {append : Bool}
    {session : Session (σ × List Event)} {u : SourceUnit} {o : Outcome (σ × List Event)}
    (expanded : expand (registry.map traced) append budget session u = some o) :
    Leads u.source session o.session o.ending.flow := by
  obtain ⟨e, ran, rfl⟩ := Option.map_eq_some_iff.mp expanded
  have leads := itemsFromEnd_leads ran
  cases append <;> exact leads

/-- An expansion and the expansion that lists its calls. -/
theorem expand_account {registry : Registry (Handler σ)} {append : Bool} {session : Session σ}
    {u : SourceUnit} {o : Outcome σ}
    (expanded : expand registry append budget session u = some o) :
    ∃ events,
      expand (registry.map traced) append budget (session.traced []) u =
        some (o.traced events) ∧
      Account u.source session o.session o.ending.flow events := by
  have projects : ∀ e ∈ registry.entries, (traced e.2).Projects Prod.fst (id e.2) :=
    fun e _ => traced_projects e.2
  have both : expand (registry.map id) append budget session u =
      (expand (registry.map traced) append budget (session.traced []) u).map
        (Outcome.map Prod.fst) := expand_map projects append (session.traced []) u
  rw [Registry.map_id] at both
  obtain ⟨o', expanded', rfl⟩ := Option.map_eq_some_iff.mp (both.symm.trans expanded)
  exact ⟨o'.session.state.2, expanded', (expand_leads expanded').account⟩

/-- An expansion keeps the path of its unit. -/
theorem path_of_expand {registry : Registry (Handler σ)} {append : Bool} {session : Session σ}
    {u : SourceUnit} {o : Outcome σ}
    (expanded : expand registry append budget session u = some o) : o.unit.path = u.path := by
  obtain ⟨e, -, rfl⟩ := Option.map_eq_some_iff.mp expanded
  cases append <;> rfl

/-- **The end of a walk and of an expansion.** A walk over a root, a walk from a place of a child
list and an expansion, whatever the handlers do, have a list of their calls that accounts for how
they ended: it is the list that the traced handlers keep. A failed expansion becomes the error of
its unit, with the failure of the pass. -/
theorem ending_of_calls (h : Handler σ) (ctx : Context) (registry : Registry (Handler σ))
    (append : Bool) (u : SourceUnit) (budget : Nat) (session : Session σ) :
    (∀ root r, Walk.run h ctx budget session root = some r →
      ∃ events,
        Walk.run (traced h) ctx budget (session.traced []) root = some (r.traced events) ∧
        Account ctx.source session r.session r.flow events) ∧
    (∀ slots place parent v, Walk.runSlot h ctx budget session slots place parent = some v →
      ∃ events,
        Walk.runSlot (traced h) ctx budget (session.traced []) slots place parent =
          some (v.traced events) ∧
        Account ctx.source session v.session v.flow events) ∧
    ∀ o, expand registry append budget session u = some o →
      ∃ events,
        expand (registry.map traced) append budget (session.traced []) u =
          some (o.traced events) ∧
        Account u.source session o.session o.ending.flow events ∧
        ∀ f, o.ending = .failed f →
          ∀ (r : Run) (p : Run.Pipeline σ), r.textOf p o = .error (.handlerFailed u.path f) := by
  refine ⟨fun root r ran => Walk.run_account ran,
    fun slots place parent v ran => Walk.runSlot_account ran, ?_⟩
  intro o expanded
  obtain ⟨events, listed, account⟩ := expand_account expanded
  refine ⟨events, listed, account, ?_⟩
  intro f failed r p
  simp only [Run.textOf, failed, path_of_expand expanded]

/-- A handler that goes down to the first `B`, deletes it on the way up, and stops there. -/
def quitting : Handler Unit := fun _ phase cursor state =>
  if phase = .post && cursor.node?.any fun n => n.value = "B" then
    ⟨state, [.delete], [⟨.warning, .detached, "gone"⟩], .ok .stop⟩
  else ⟨state, [], [], .ok .continue⟩

/-- Two items that ask for `quitting`, each with a `B` two levels down. -/
def quittingUnit : SourceUnit :=
  .ofItems ⟨⟨"a.rmc"⟩, ""⟩ (some "macro:use quit")
    [.list .decl "fn" [.list .stmt "let" [.ident "B"]],
      .list .decl "fn" [.list .stmt "let" [.ident "B"]]]

theorem ending_of_calls_quittingUnit :
    ∃ (o : Outcome Unit) (events : List Event),
      expand (.ofList [("quit", quitting)]) false 9 ⟨(), [], 0⟩ quittingUnit = some o ∧
      o.ending = .stopped ∧ events.length = 4 ∧ o.session.reports.length = 1 ∧
      Account quittingUnit.source ⟨(), [], 0⟩ o.session o.ending.flow events := by
  have ended : (expand (.ofList [("quit", quitting)]) false 9 ⟨(), [], 0⟩ quittingUnit).map
      (fun o => (o.ending, o.session.visits, o.session.reports.length)) =
        some (.stopped, 4, 1) := by
    decide +kernel
  obtain ⟨o, expanded, ended⟩ := Option.map_eq_some_iff.mp ended
  obtain ⟨stopped, visits, reports⟩ : o.ending = .stopped ∧ o.session.visits = 4 ∧
      o.session.reports.length = 1 := by
    simpa using ended
  obtain ⟨events, -, account, -⟩ := (ending_of_calls quitting
    ⟨quittingUnit.source, .parse none, .parse none, "quit"⟩ (.ofList [("quit", quitting)]) false
    quittingUnit 9 ⟨(), [], 0⟩).2.2 o expanded
  have total := account.visits
  rw [visits, Nat.zero_add] at total
  exact ⟨o, events, expanded, stopped, total.symm, reports, account⟩

end Expansion

end Graft
