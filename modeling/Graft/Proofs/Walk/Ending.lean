import Graft.Proofs.Walk.Projection
import Graft.Proofs.Walk.Refinement

/-!
# What ends a walk

A walk goes on until it has visited everything, until a handler answers `stop`, or until a handler
fails. `traced` makes of a handler one that also lists its calls, with what it answered to each.
`Account` says of such a list what the way in which a walk ended has to do with it: the verdict
`stop` and a fault occur in the last call only, the walk was stopped if the one occurred and failed
if the other did, the calls are counted, and a failure is the last thing that is reported.

`Leads` is what is kept along a walk. One call leads from its session to the next, and what leads
on without an end can be put before what follows (`Leads.trans`). A visit is put together of its
calls and of the visits of the children: `visit_leads_and_walk_leads`.
-/

namespace Graft

variable {σ : Type}

/-- A handler call, with what the handler answered to it. -/
structure Event where
  /-- The name under which the handler was selected. -/
  handlerName : String
  call : Call
  notices : List Notice
  outcome : Except HandlerFault Verdict

namespace Event

/-- The call asks for the end of the walk. -/
def Final (e : Event) : Prop := e.outcome = .ok .stop ∨ ∃ fault, e.outcome = .error fault

/-- What the handler itself reported in the call. -/
def reports (source : SourceText) (e : Event) : List Report :=
  e.notices.map (Report.ofNotice source)

/-- The call leads to the given flow: no end, a stop, or the failure with its fault. -/
def LeadsTo (e : Event) : Flow → Prop
  | .next => ¬ e.Final
  | .stop => e.outcome = .ok .stop
  | .failed f => e.outcome = .error f.fault ∧ e.handlerName = f.handlerName

end Event

/-- The same handler, keeping a list of its calls and answers beside its own state. -/
def traced (h : Handler σ) : Handler (σ × List Event) :=
  fun ctx phase c state =>
    let reply := h ctx phase c state.1
    let event : Event :=
      ⟨ctx.handlerName, ⟨phase, c.node?, c.parent, c.index?⟩, reply.notices, reply.outcome⟩
    ⟨(reply.state, state.2 ++ [event]), reply.edits, reply.notices, reply.outcome⟩

theorem traced_projects (h : Handler σ) : (traced h).Projects Prod.fst h :=
  fun _ _ _ _ => rfl

/-- A session of a handler that keeps a list of its calls. -/
def Session.traced (s : Session σ) (events : List Event) : Session (σ × List Event) :=
  ⟨(s.state, events), s.reports, s.visits⟩

def Visited.traced (v : Visited σ) (events : List Event) : Visited (σ × List Event) :=
  { v with session := v.session.traced events }

def Walk.Rooted.traced (r : Walk.Rooted σ) (events : List Event) : Walk.Rooted (σ × List Event) :=
  { r with session := r.session.traced events }

/-- What is reported because of a failure. -/
def Flow.reports (source : SourceText) : Flow → List Report
  | .failed f => [⟨.error, source.path, f.position, f.handlerName ++ ": " ++ f.fault.message⟩]
  | _ => []

/-! ### The account of a list of calls -/

/-- The calls between two sessions, of which the last decides how things go on. -/
structure Account (source : SourceText) (before after : Session σ) (flow : Flow)
    (events : List Event) : Prop where
  /-- Things are stopped if and only if some call answered so. -/
  stopped : flow = .stop ↔ ∃ e ∈ events, e.outcome = .ok .stop
  /-- Things failed if and only if some call did. -/
  failed : (∃ f, flow = .failed f) ↔ ∃ e ∈ events, ∃ fault, e.outcome = .error fault
  /-- Everything was visited if and only if neither happened. -/
  completed : flow = .next ↔ ∀ e ∈ events, ¬ e.Final
  /-- The call that stopped or failed is the last one. -/
  last : ∀ front e later, events = front ++ e :: later → e.Final → later = []
  /-- The failure is that of the last call. -/
  failure : ∀ f, flow = .failed f → ∃ e, events.getLast? = some e ∧
    e.outcome = .error f.fault ∧ e.handlerName = f.handlerName
  visits : after.visits = before.visits + events.length
  /-- A failure is reported once, after everything that the handlers reported. -/
  reports : after.reports =
    before.reports ++ events.flatMap (Event.reports source) ++ flow.reports source

/-- The calls lead to the given flow: the last one does, if there is one, and none before it asks
for an end. -/
def Flow.Follows (flow : Flow) (events : List Event) : Prop :=
  match events.getLast? with
  | none => flow = .next
  | some e => e.LeadsTo flow ∧ ∀ e ∈ events.dropLast, ¬ e.Final

variable {source : SourceText} {flow : Flow} {events : List Event} {e : Event}

theorem Event.LeadsTo.final (leads : e.LeadsTo flow) : e.Final ↔ flow ≠ .next := by
  cases flow with
  | next => exact ⟨fun final => absurd final leads, fun ends => absurd rfl ends⟩
  | stop => exact ⟨fun _ => by simp, fun _ => Or.inl leads⟩
  | failed f => exact ⟨fun _ => by simp, fun _ => Or.inr ⟨_, leads.1⟩⟩

theorem Event.LeadsTo.stop_iff (leads : e.LeadsTo flow) :
    e.outcome = .ok .stop ↔ flow = .stop := by
  cases flow with
  | next => exact ⟨fun stops => absurd (Or.inl stops) leads, fun stops => by cases stops⟩
  | stop => exact ⟨fun _ => rfl, fun _ => leads⟩
  | failed f => simp [leads.1]

theorem Event.LeadsTo.fault_iff (leads : e.LeadsTo flow) :
    (∃ fault, e.outcome = .error fault) ↔ ∃ f, flow = .failed f := by
  cases flow with
  | next => exact ⟨fun fails => absurd (Or.inr fails) leads, fun ⟨f, fails⟩ => by cases fails⟩
  | stop =>
      have answer : e.outcome = .ok .stop := leads
      simp [answer]
  | failed f => exact ⟨fun _ => ⟨f, rfl⟩, fun _ => ⟨_, leads.1⟩⟩

/-- An account of calls the last of which decides. -/
theorem Account.of_follows {before after : Session σ} (follows : flow.Follows events)
    (visits : after.visits = before.visits + events.length)
    (reports : after.reports =
      before.reports ++ events.flatMap (Event.reports source) ++ flow.reports source) :
    Account source before after flow events := by
  rcases List.eq_nil_or_concat events with rfl | ⟨front, e, rfl⟩
  · obtain rfl : flow = .next := follows
    exact ⟨by simp, by simp, by simp, by simp, by simp, visits, reports⟩
  · rw [List.concat_eq_append] at follows visits reports ⊢
    rw [Flow.Follows, List.getLast?_concat, List.dropLast_concat] at follows
    obtain ⟨leads, goOn⟩ := follows
    have only : ∀ {p : Event → Prop}, (∀ e, p e → e.Final) →
        ((∃ e' ∈ front ++ [e], p e') ↔ p e) := by
      intro p final
      constructor
      · rintro ⟨e', member, holds⟩
        rcases List.mem_append.mp member with first | last
        · exact absurd (final e' holds) (goOn e' first)
        · rwa [List.mem_singleton.mp last] at holds
      · exact fun holds => ⟨e, by simp, holds⟩
    refine ⟨?_, ?_, ?_, ?_, ?_, visits, reports⟩
    · rw [only fun e stops => Or.inl stops, leads.stop_iff]
    · rw [only fun e fails => Or.inr fails, leads.fault_iff]
    · have ends : (∃ e' ∈ front ++ [e], e'.Final) ↔ flow ≠ .next := by
        rw [only fun e final => final, leads.final]
      constructor
      · intro goesOn e' member final
        exact ends.mp ⟨e', member, final⟩ goesOn
      · intro none
        refine Decidable.byContradiction fun other => ?_
        obtain ⟨e', member, final⟩ := ends.mpr other
        exact none e' member final
    · intro front' e' later whole final
      rcases List.eq_nil_or_concat later with rfl | ⟨later, last, rfl⟩
      · rfl
      · rw [List.concat_eq_append, ← List.cons_append, ← List.append_assoc] at whole
        obtain ⟨same, -⟩ := List.append_inj' whole rfl
        exact absurd final (goOn e' (by simp [same]))
    · intro f fails
      rw [fails] at leads
      exact ⟨e, List.getLast?_concat, leads⟩

/-- The failure of a walk has the fault of the call that failed. -/
theorem Account.fault_of_mem {before after : Session σ}
    (account : Account source before after flow events) (member : e ∈ events)
    {fault : HandlerFault} (fails : e.outcome = .error fault) :
    ∃ f, flow = .failed f ∧ f.fault = fault := by
  obtain ⟨f, failed⟩ := account.failed.mpr ⟨e, member, fault, fails⟩
  obtain ⟨last, there, answer, -⟩ := account.failure f failed
  -- nothing comes after a call that fails
  obtain ⟨front, later, split⟩ := List.append_of_mem member
  cases account.last front e later split (Or.inr ⟨fault, fails⟩)
  rw [split, List.getLast?_concat] at there
  cases there
  rw [fails] at answer
  cases answer
  exact ⟨f, failed, rfl⟩

/-! ### What is kept along a walk -/

/-- What a list of calls makes of a session. -/
def Leads (source : SourceText) (before after : Session (σ × List Event)) (flow : Flow) : Prop :=
  ∃ events, after.state.2 = before.state.2 ++ events ∧ flow.Follows events ∧
    after.visits = before.visits + events.length ∧
    after.reports = before.reports ++ events.flatMap (Event.reports source) ++ flow.reports source

namespace Leads

variable {before middle after : Session (σ × List Event)}

theorem refl (source : SourceText) (s : Session (σ × List Event)) : Leads source s s .next :=
  ⟨[], by simp, rfl, rfl, by simp [Flow.reports]⟩

/-- What goes on can be put before what follows. -/
theorem trans (first : Leads source before middle .next) (second : Leads source middle after flow) :
    Leads source before after flow := by
  obtain ⟨events, listed, follows, visits, reports⟩ := first
  obtain ⟨events', listed', follows', visits', reports'⟩ := second
  have goOn : ∀ e ∈ events, ¬ e.Final := by
    rcases List.eq_nil_or_concat events with rfl | ⟨front, e, rfl⟩
    · simp
    · rw [List.concat_eq_append] at follows ⊢
      rw [Flow.Follows, List.getLast?_concat, List.dropLast_concat] at follows
      intro e' member
      rcases List.mem_append.mp member with first | last
      · exact follows.2 e' first
      · rw [List.mem_singleton.mp last]
        exact follows.1
  refine ⟨events ++ events', ?_, ?_, ?_, ?_⟩
  · rw [listed', listed, List.append_assoc]
  · rcases List.eq_nil_or_concat events' with rfl | ⟨front, e, rfl⟩
    · obtain rfl : flow = .next := follows'
      rwa [List.append_nil]
    · rw [List.concat_eq_append] at follows' ⊢
      rw [Flow.Follows, List.getLast?_concat, List.dropLast_concat] at follows'
      rw [← List.append_assoc, Flow.Follows, List.getLast?_concat, List.dropLast_concat]
      refine ⟨follows'.1, fun e' member => ?_⟩
      exact (List.mem_append.mp member).elim (goOn e') (follows'.2 e')
  · rw [visits', visits, List.length_append, Nat.add_assoc]
  · rw [reports', reports, List.flatMap_append]
    simp [Flow.reports]

/-- The calls from a session without any are accounted for. -/
theorem account {s : Session σ} (leads : Leads source (s.traced []) after flow) :
    Account source s (after.map Prod.fst) flow after.state.2 := by
  obtain ⟨events, listed, follows, visits, reports⟩ := leads
  rw [show after.state.2 = events by simpa [Session.traced] using listed]
  exact .of_follows follows visits reports

end Leads

namespace ZipperWalk

variable {h : Handler σ} {ctx : Context}

theorem call_leads (h : Handler σ) (ctx : Context) (phase : Phase)
    (session : Session (σ × List Event)) (z : Zipper) (parent : Option Parent) (span : Span) :
    Leads ctx.source session (call (traced h) ctx phase session z parent span).session
      (flowOf (call (traced h) ctx phase session z parent span).outcome) := by
  refine ⟨[⟨ctx.handlerName, ⟨phase, (z.cursor parent).node?, (z.cursor parent).parent,
    (z.cursor parent).index?⟩, (h ctx phase (z.cursor parent) session.state.1).notices,
    (h ctx phase (z.cursor parent) session.state.1).outcome⟩], ?_⟩
  simp only [call, traced]
  cases answer : (h ctx phase (z.cursor parent) session.state.1).outcome with
  | error fault =>
      refine ⟨rfl, ?_, rfl, ?_⟩
      · simp [Flow.Follows, flowOf, Event.LeadsTo]
      · simp [Event.reports, flowOf, Flow.reports]
  | ok verdict =>
      refine ⟨rfl, ?_, rfl, ?_⟩
      · cases verdict <;> simp [Flow.Follows, flowOf, Event.LeadsTo, Event.Final]
      · cases verdict <;> simp [Event.reports, flowOf, Flow.reports]

/-- One more level of budget for the visit of a node. -/
theorem visit_leads_step {budget : Nat}
    (below : ∀ parent session done todo fallback w,
      walk (traced h) ctx parent budget session done todo fallback = some w →
        Leads ctx.source session w.session w.flow)
    (parent : Option Parent) (session : Session (σ × List Event)) (done todo : List Node)
    (n : Node) (fallback : Span) (v : Visit (σ × List Event))
    (visited : visit (traced h) ctx parent (budget + 1) session done n todo fallback = some v) :
    Leads ctx.source session v.session v.flow := by
  have first := call_leads h ctx .pre session ⟨done, some n, todo⟩ parent (n.span.orElse fallback)
  have ways := visit_cases visited
  simp only at ways
  generalize call (traced h) ctx .pre session ⟨done, some n, todo⟩ parent
    (n.span.orElse fallback) = pre at first ways
  rcases ways with ⟨rfl, -⟩ | ⟨m, outcome, -, rfl⟩ | ⟨m, w, outcome, -, walked, rest⟩
  · exact first
  · rw [outcome] at first
    exact first.trans (call_leads h ctx .post pre.session pre.zipper parent _)
  · rw [outcome] at first
    have children := first.trans (below _ _ _ _ _ _ walked)
    rcases rest with ⟨-, rfl⟩ | ⟨goesOn, rfl⟩
    · exact children
    · rw [goesOn] at children
      exact children.trans (call_leads h ctx .post w.session _ parent _)

/-- One more level of budget for the walk over a list. -/
theorem walk_leads_step {budget : Nat}
    (visits : ∀ parent session done todo n fallback v,
      visit (traced h) ctx parent budget session done n todo fallback = some v →
        Leads ctx.source session v.session v.flow)
    (later : ∀ parent session done todo fallback w,
      walk (traced h) ctx parent budget session done todo fallback = some w →
        Leads ctx.source session w.session w.flow)
    (parent : Parent) (session : Session (σ × List Event)) (done todo : List Node)
    (fallback : Span) (w : Tour (σ × List Event))
    (walked : walk (traced h) ctx parent (budget + 1) session done todo fallback = some w) :
    Leads ctx.source session w.session w.flow := by
  cases todo with
  | nil =>
      rw [walk] at walked
      cases walked
      exact .refl _ _
  | cons n todo =>
      rw [walk] at walked
      cases visited : visit (traced h) ctx (some parent) budget session done n todo fallback with
      | none => simp [visited] at walked
      | some v =>
          have here := visits _ _ _ _ _ _ _ visited
          simp only [visited] at walked
          cases flow : v.flow with
          | next =>
              simp only [flow] at walked here
              obtain ⟨w', rest, rfl⟩ := Option.map_eq_some_iff.mp walked
              exact here.trans (later _ _ _ _ _ w' rest)
          | stop =>
              simp only [flow] at walked here
              cases walked
              exact here
          | failed f =>
              simp only [flow] at walked here
              cases walked
              exact here

/-- The calls of a visit, and those of a walk over a list, decide how it ends. The induction is on
the budget, for both at once. -/
theorem visit_leads_and_walk_leads (h : Handler σ) (ctx : Context) (budget : Nat) :
    (∀ parent session done todo n fallback v,
      visit (traced h) ctx parent budget session done n todo fallback = some v →
        Leads ctx.source session v.session v.flow) ∧
    ∀ parent session done todo fallback w,
      walk (traced h) ctx parent budget session done todo fallback = some w →
        Leads ctx.source session w.session w.flow := by
  induction budget with
  | zero =>
      constructor
      · intro parent session done todo n fallback v visited
        simp [visit] at visited
      · intro parent session done todo fallback w walked
        simp [walk] at walked
  | succ budget ih =>
      constructor
      · intro parent session done todo n fallback v
        exact visit_leads_step ih.2 parent session done todo n fallback v
      · exact walk_leads_step ih.1 ih.2

end ZipperWalk

namespace Walk

variable {h : Handler σ} {ctx : Context} {budget : Nat}

theorem runSlot_leads {session : Session (σ × List Event)} {slots : List Node} {place : Nat}
    {parent : Parent} {v : Visited (σ × List Event)}
    (ran : runSlot (traced h) ctx budget session slots place parent = some v) :
    Leads ctx.source session v.session v.flow := by
  cases here : slots[place]? with
  | none =>
      -- no node stands there, so nothing is called
      cases budget with
      | zero => simp [runSlot, slot] at ran
      | succ budget =>
          rw [runSlot, slot] at ran
          simp only [here] at ran
          cases ran
          exact .refl _ _
  | some n =>
      obtain ⟨visit, visited, rfl⟩ := ZipperWalk.exists_visit here ran
      exact (ZipperWalk.visit_leads_and_walk_leads h ctx budget).1 _ _ _ _ _ _ _ visited

theorem run_leads {session : Session (σ × List Event)} {root : Node} {r : Rooted (σ × List Event)}
    (ran : run (traced h) ctx budget session root = some r) :
    Leads ctx.source session r.session r.flow := by
  rw [ZipperWalk.run_eq] at ran
  obtain ⟨visit, visited, rfl⟩ := Option.map_eq_some_iff.mp ran
  exact (ZipperWalk.visit_leads_and_walk_leads h ctx budget).1 _ _ _ _ _ _ _ visited

/-- A walk from a place and the walk that lists its calls. -/
theorem runSlot_account {session : Session σ} {slots : List Node} {place : Nat} {parent : Parent}
    {v : Visited σ} (ran : runSlot h ctx budget session slots place parent = some v) :
    ∃ events,
      runSlot (traced h) ctx budget (session.traced []) slots place parent =
        some (v.traced events) ∧
      Account ctx.source session v.session v.flow events := by
  have both := runSlot_map (traced_projects h) ctx budget (session.traced []) slots place parent
  obtain ⟨v', ran', rfl⟩ := Option.map_eq_some_iff.mp (both.symm.trans ran)
  exact ⟨v'.session.state.2, ran', (runSlot_leads ran').account⟩

/-- A walk over a root and the walk that lists its calls. -/
theorem run_account {session : Session σ} {root : Node} {r : Rooted σ}
    (ran : run h ctx budget session root = some r) :
    ∃ events,
      run (traced h) ctx budget (session.traced []) root = some (r.traced events) ∧
      Account ctx.source session r.session r.flow events := by
  have both := run_map (traced_projects h) ctx budget (session.traced []) root
  obtain ⟨r', ran', rfl⟩ := Option.map_eq_some_iff.mp (both.symm.trans ran)
  exact ⟨r'.session.state.2, ran', (run_leads ran').account⟩

end Walk

end Graft
