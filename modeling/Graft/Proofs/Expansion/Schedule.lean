import Graft.Proofs.Expansion.Plan
import Graft.Proofs.Walk.Refinement

/-!
# The passes that an expansion runs

An expansion finds the next item by counting from the end of a list that its passes lengthen and
shorten, and it takes the place of an item's next pass from the pass before. `schedule` states
what this comes to. The passes of an expansion form a log. The log follows the agenda that the
documentation of the unit as it was asks for: nothing is left out but the remaining passes of an
item that one of its passes deleted, and everything after a pass that stopped, failed or did not
end. The first pass over an item starts on the item itself, with the items after it untouched;
every further pass starts on the node that the pass before left in the item's place. What a pass
does is given by the reference walk, in which a node is gone only when a handler deleted it. The
handlers are arbitrary: they can note in their state what they are called with, so expansions with
the same result have made the same passes.

The invariant of the loop is that the list ends with the items still to come, exactly as they were
in the unit. `passes_log` keeps it over the passes of one item and `items_log` over the items.
-/

namespace Graft.Expansion

open ZipperWalk (Visit visit)

variable {σ : Type}

/-- A pass that was run: the task, the session it started with, and the child list, cut at the
node that the pass was bound to. -/
structure Pass (σ : Type) where
  task : Task σ
  session : Session σ
  before : List Node
  node : Node
  after : List Node
  /-- What the pass left behind; nothing if it did not end. -/
  result : Option (Visit σ)

/-- What is still to be run after a pass. -/
def Pass.goOn (p : Pass σ) (rest : List (Task σ)) : List (Task σ) :=
  match p.result with
  | none => []
  | some v =>
    match v.flow, v.zipper.node? with
    | .next, some _ => rest
    | .next, none => rest.filter fun t => t.item ≠ p.task.item
    | _, _ => []

/-- The passes of a log are the tasks of an agenda, in order, as long as there are any. -/
def Follows : List (Task σ) → List (Pass σ) → Prop
  | tasks, [] => tasks = []
  | tasks, p :: log => ∃ rest, tasks = p.task :: rest ∧ Follows (p.goOn rest) log

/-- The slot at `place`, from which the list reads `slots`, is that of an item of the unit: the
slot in which the pass before left the item, or, for the first pass over the item, the slot where
the item and the items after it stand as they were. -/
def OnSlot (u : SourceUnit) (previous : Option (Pass σ)) (item : Nat) (place : Nat)
    (slots : List Node) : Prop :=
  match previous with
  | some q =>
    if q.task.item = item then q.result.bind (·.visited.position) = some place
    else slots = u.items.drop item
  | none => slots = u.items.drop item

/-- What a pass of the handlers sees: the directives are those of the item and of the unit as they
were. -/
def contextOf (u : SourceUnit) (t : Task σ) : Context :=
  ⟨u.source, Directives.parse (u.items[t.item]?.bind (·.doc)), Directives.parse u.doc, t.name⟩

/-- Every pass of a log is a walk that starts on the slot of its item, with the session and the
list that the pass before left behind. It changes the list next to that slot only. -/
def Chained (u : SourceUnit) (budget : Nat) :
    (previous : Option (Pass σ)) → Session σ → List Node → List (Pass σ) → Prop
  | _, _, _, [] => True
  | previous, session, items, p :: log =>
    p.session = session ∧ p.before ++ p.node :: p.after = items ∧
      OnSlot u previous p.task.item p.before.length (p.node :: p.after) ∧
      Walk.runSlot p.task.handler (contextOf u p.task) budget session items p.before.length
        (Parent.of u.root) = p.result.map Visit.visited ∧
      visit p.task.handler (contextOf u p.task) (some (Parent.of u.root)) budget session p.before
        p.node p.after (Parent.of u.root).span = p.result ∧
      ∀ v, p.result = some v →
        p.before <+: v.zipper.done ∧ p.after <:+ v.zipper.todo ∧
          Chained u budget (some p) v.session v.zipper.nodes log

/-- What an expansion leaves behind whose passes are a log, when `applied` passes were run before.
A pass that did not end has no result, and neither has the expansion. -/
def ended (applied : Nat) (session : Session σ) (items : List Node) (log : List (Pass σ)) :
    Option (Expanded σ) :=
  match log.getLast? with
  | none => some ⟨session, items, applied, .completed⟩
  | some p =>
    match p.result with
    | none => none
    | some v =>
      match v.flow with
      | .next => some ⟨v.session, v.zipper.nodes, applied + log.length, .completed⟩
      | .stop => some ⟨v.session, v.zipper.nodes, applied + log.length, .stopped⟩
      | .failed f => some ⟨v.session, v.zipper.nodes, applied + (log.length - 1), .failed f⟩

/-! ### Logs -/

theorem goOn_sublist (p : Pass σ) (rest : List (Task σ)) : (p.goOn rest).Sublist rest := by
  rw [Pass.goOn]
  split
  · exact List.nil_sublist _
  · split
    · exact List.Sublist.refl _
    · exact List.filter_sublist
    · exact List.nil_sublist _

/-- A log has only passes of its agenda, in the order of the agenda. -/
theorem Follows.sublist {tasks : List (Task σ)} {log : List (Pass σ)} (h : Follows tasks log) :
    (log.map (·.task)).Sublist tasks := by
  induction log generalizing tasks with
  | nil => exact List.nil_sublist _
  | cons p log ih =>
      obtain ⟨rest, rfl, follows⟩ := h
      exact ((ih follows).trans (goOn_sublist p rest)).cons_cons p.task

/-- The first pass of a log that goes on adds one to the passes run. -/
theorem ended_cons {p : Pass σ} {v : Visit σ} (result : p.result = some v)
    (goesOn : v.flow = .next) (applied : Nat) (session : Session σ) (items : List Node)
    (log : List (Pass σ)) :
    ended applied session items (p :: log) =
      ended (applied + 1) v.session v.zipper.nodes log := by
  cases log with
  | nil => simp [ended, result, goesOn]
  | cons q log =>
      obtain ⟨last, isLast⟩ : ∃ last, (q :: log).getLast? = some last :=
        ⟨_, List.getLast?_eq_some_getLast (by simp)⟩
      simp only [ended, List.getLast?_cons_cons, isLast, List.length_cons]
      have total : applied + (log.length + 1 + 1) = applied + 1 + (log.length + 1) := by omega
      have total' : applied + (log.length + 1 + 1 - 1) = applied + 1 + (log.length + 1 - 1) := by
        omega
      rw [total, total']

/-- A pass before an item says nothing on the slot of the item. -/
theorem onSlot_of_earlier {u : SourceUnit} {previous : Option (Pass σ)} {item place : Nat}
    {slots : List Node} (earlier : ∀ q, previous = some q → q.task.item < item)
    (here : slots = u.items.drop item) : OnSlot u previous item place slots := by
  cases previous with
  | none => exact here
  | some q =>
      have other : q.task.item ≠ item := Nat.ne_of_lt (earlier q rfl)
      rw [OnSlot, if_neg other]
      exact here

/-! ### The loops -/

/-- How an expansion goes on after the passes over an item. -/
def resume (registry : Registry (Handler σ)) (u : SourceUnit) (budget remaining : Nat) :
    Option (ItemDone σ) → Option (Expanded σ)
  | none => none
  | some done =>
    match done.ended with
    | some ending => some ⟨done.session, done.items, done.applied, ending⟩
    | none =>
      itemsFromEnd registry u.source (Directives.parse u.doc) (Parent.of u.root) budget remaining
        done.session done.items done.applied

variable {registry : Registry (Handler σ)} {u : SourceUnit} {budget remaining i : Nat}

/-- The run after item `i`, whatever stands before the items still to come, has a log. -/
def LogsFrom (registry : Registry (Handler σ)) (u : SourceUnit) (budget remaining i : Nat)
    (tasks : List (Task σ)) : Prop :=
  ∀ previous session pre applied, (∀ q, previous = some q → q.task.item < i) →
    ∃ log, Follows tasks log ∧
      Chained u budget previous session (pre ++ u.items.drop i) log ∧
      itemsFromEnd registry u.source (Directives.parse u.doc) (Parent.of u.root) budget remaining
        session (pre ++ u.items.drop i) applied =
        ended applied session (pre ++ u.items.drop i) log

/-- The tasks of an item that are left when the item was deleted are dropped, all others stay. -/
theorem filter_other_items {tasks : List (Task σ)} (foreign : ∀ t ∈ tasks, i < t.item)
    (handlers : List (String × Handler σ)) :
    (tasksOf i handlers ++ tasks).filter (fun t => t.item ≠ i) = tasks := by
  have own : (tasksOf i handlers).filter (fun t => t.item ≠ i) = [] := by
    apply List.filter_eq_nil_iff.mpr
    intro t member
    simp [item_of_mem_tasksOf member]
  have others : tasks.filter (fun t => t.item ≠ i) = tasks := by
    apply List.filter_eq_self.mpr
    intro t member
    exact decide_eq_true (Nat.ne_of_gt (foreign t member))
  rw [List.filter_append, own, others, List.nil_append]

/-- One pass over an item, and how the run goes on after it. -/
theorem resume_passes_cons (registry : Registry (Handler σ)) (u : SourceUnit)
    (budget remaining : Nat) (name : String) (h : Handler σ) (handlers : List (String × Handler σ))
    (session : Session σ) (before after : List Node) (node : Node) (applied : Nat)
    (directives : Directives) :
    resume registry u budget remaining
        (passes u.source directives (Directives.parse u.doc) (Parent.of u.root) budget
          ((name, h) :: handlers) session (before ++ node :: after) before.length applied) =
      match visit h ⟨u.source, directives, Directives.parse u.doc, name⟩
        (some (Parent.of u.root)) budget session before node after (Parent.of u.root).span with
      | none => none
      | some v =>
        match v.flow with
        | .failed f => some ⟨v.session, v.zipper.nodes, applied, .failed f⟩
        | .stop => some ⟨v.session, v.zipper.nodes, applied + 1, .stopped⟩
        | .next =>
          match v.zipper.node? with
          | none =>
            itemsFromEnd registry u.source (Directives.parse u.doc) (Parent.of u.root) budget
              remaining v.session v.zipper.nodes (applied + 1)
          | some _ =>
            resume registry u budget remaining
              (passes u.source directives (Directives.parse u.doc) (Parent.of u.root) budget
                handlers v.session v.zipper.nodes v.zipper.done.length (applied + 1)) := by
  rw [passes, ZipperWalk.runSlot_eq]
  cases visit h ⟨u.source, directives, Directives.parse u.doc, name⟩
    (some (Parent.of u.root)) budget session before node after (Parent.of u.root).span with
  | none => rfl
  | some v =>
      obtain ⟨session', ⟨done, stands, todo⟩, flow, calls⟩ := v
      cases flow with
      | next => cases stands <;> rfl
      | stop => rfl
      | failed f => rfl

/-- The passes over one item, followed by the rest of the run, have a log. The induction is on
the handlers still to run, over all lists that end with the items still to come. -/
theorem passes_log {tasks : List (Task σ)} (foreign : ∀ t ∈ tasks, i < t.item)
    (later : LogsFrom registry u budget remaining (i + 1) tasks)
    (handlers : List (String × Handler σ)) (previous : Option (Pass σ)) (session : Session σ)
    (before : List Node) (node : Node) (behind : List Node) (applied : Nat)
    (earlier : ∀ q, previous = some q → q.task.item < i + 1)
    (slot : OnSlot u previous i before.length (node :: (behind ++ u.items.drop (i + 1)))) :
    let items := before ++ node :: (behind ++ u.items.drop (i + 1))
    ∃ log, Follows (tasksOf i handlers ++ tasks) log ∧
      Chained u budget previous session items log ∧
      resume registry u budget remaining
        (passes u.source (Directives.parse (u.items[i]?.bind (·.doc))) (Directives.parse u.doc)
          (Parent.of u.root) budget handlers session items before.length applied) =
        ended applied session items log := by
  induction handlers generalizing previous session before node behind applied with
  | nil =>
      have whole : before ++ node :: (behind ++ u.items.drop (i + 1)) =
          (before ++ node :: behind) ++ u.items.drop (i + 1) := by simp
      simp only [whole]
      exact later previous session (before ++ node :: behind) applied earlier
  | cons e handlers ih =>
      obtain ⟨name, h⟩ := e
      intro items
      let p : Pass σ := ⟨⟨i, name, h⟩, session, before, node, behind ++ u.items.drop (i + 1),
        visit h (contextOf u ⟨i, name, h⟩) (some (Parent.of u.root)) budget session before node
          (behind ++ u.items.drop (i + 1)) (Parent.of u.root).span⟩
      have earlier' : ∀ q, some p = some q → q.task.item < i + 1 := by
        rintro q ⟨⟩
        exact Nat.lt_succ_self i
      have around : ∀ v, p.result = some v →
          before <+: v.zipper.done ∧ (behind ++ u.items.drop (i + 1)) <:+ v.zipper.todo :=
        fun v ran => ZipperWalk.visit_around ran
      have chained : ∀ log,
          (∀ v, p.result = some v →
            Chained u budget (some p) v.session v.zipper.nodes log) →
          Chained u budget previous session items (p :: log) := by
        intro log rest
        exact ⟨rfl, rfl, slot, ZipperWalk.runSlot_eq .., rfl,
          fun v ran => ⟨(around v ran).1, (around v ran).2, rest v ran⟩⟩
      have step := resume_passes_cons registry u budget remaining name h handlers session before
        (behind ++ u.items.drop (i + 1)) node applied
        (Directives.parse (u.items[i]?.bind (·.doc)))
      change _ = match p.result with | none => none | some v => _ at step
      rw [step]
      cases ran : p.result with
      | none =>
          refine ⟨[p], ⟨_, rfl, by simp [Pass.goOn, ran, Follows]⟩,
            chained [] fun _ _ => trivial, by simp [ended, ran]⟩
      | some v =>
          obtain ⟨-, ⟨behind', last⟩⟩ := around v ran
          cases flow : v.flow with
          | failed f =>
              refine ⟨[p], ⟨_, rfl, by simp [Pass.goOn, ran, flow, Follows]⟩,
                chained [] fun _ _ => trivial, by simp [ended, ran, flow]⟩
          | stop =>
              refine ⟨[p], ⟨_, rfl, by simp [Pass.goOn, ran, flow, Follows]⟩,
                chained [] fun _ _ => trivial, by simp [ended, ran, flow]⟩
          | next =>
              have onward : ∀ log, Follows (p.goOn (tasksOf i handlers ++ tasks)) log →
                  Chained u budget (some p) v.session v.zipper.nodes log →
                  Follows (tasksOf i ((name, h) :: handlers) ++ tasks) (p :: log) ∧
                    Chained u budget previous session items (p :: log) := by
                refine fun log follows chain => ⟨⟨_, rfl, follows⟩, chained log ?_⟩
                intro v' ran'
                cases ran.symm.trans ran'
                exact chain
              cases stands : v.zipper.node? with
              | none =>
                  -- the item is gone, so the run goes on with the items still to come
                  have gone : v.zipper.nodes =
                      (v.zipper.done ++ (behind' ++ behind)) ++ u.items.drop (i + 1) := by
                    simp [Zipper.nodes, stands, ← last]
                  obtain ⟨log, follows, chain, run⟩ := later (some p) v.session
                    (v.zipper.done ++ (behind' ++ behind)) (applied + 1) earlier'
                  rw [← gone] at chain run
                  have dropped : p.goOn (tasksOf i handlers ++ tasks) = tasks := by
                    simp only [Pass.goOn, ran, flow, stands]
                    exact filter_other_items foreign handlers
                  obtain ⟨follows', chain'⟩ := onward log (by rwa [dropped]) chain
                  refine ⟨p :: log, follows', chain', ?_⟩
                  rw [ended_cons ran flow]
                  simpa only [flow, stands] using run
              | some m =>
                  -- the node now in the slot has the passes that are left
                  have moved : v.zipper.nodes =
                      v.zipper.done ++ m :: ((behind' ++ behind) ++ u.items.drop (i + 1)) := by
                    simp [Zipper.nodes, stands, ← last]
                  have slot' : OnSlot u (some p) i v.zipper.done.length
                      (m :: ((behind' ++ behind) ++ u.items.drop (i + 1))) := by
                    rw [OnSlot, if_pos rfl, ran, Option.bind_some]
                    simp only [ZipperWalk.Visit.visited, stands, Option.map_some]
                  obtain ⟨log, follows, chain, run⟩ := ih (some p) v.session v.zipper.done m
                    (behind' ++ behind) (applied + 1) earlier' slot'
                  simp only [← moved] at chain run
                  have kept : p.goOn (tasksOf i handlers ++ tasks) =
                      tasksOf i handlers ++ tasks := by
                    simp only [Pass.goOn, ran, flow, stands]
                  obtain ⟨follows', chain'⟩ := onward log (by rwa [kept]) chain
                  refine ⟨p :: log, follows', chain', ?_⟩
                  rw [ended_cons ran flow]
                  simpa only [flow, stands] using run

/-- Going on after the passes over the item in a place. -/
theorem itemsFromEnd_succ (session : Session σ) (items : List Node) (applied : Nat) :
    itemsFromEnd registry u.source (Directives.parse u.doc) (Parent.of u.root) budget
        (remaining + 1) session items applied =
      let place := items.length - (remaining + 1)
      let directives := Directives.parse (items[place]?.bind (·.doc))
      resume registry u budget remaining
        (passes u.source directives (Directives.parse u.doc) (Parent.of u.root) budget
          (plan (registry.getAsNamed directives.uses)
            (registry.get (Directives.parse u.doc).uses))
          session items place applied) := by
  rw [itemsFromEnd]
  simp only
  generalize passes u.source _ _ _ _ _ _ _ _ _ = done
  cases done with
  | none => rfl
  | some done =>
      obtain ⟨session', items', applied', ending⟩ := done
      cases ending <;> rfl

/-- The run from an item on has a log. The induction is on the items still to come, over all
lists that end with them. -/
theorem items_log (distinct : registry.Distinct) (ds : List Node) (i : Nat)
    (rest : u.items.drop i = ds) :
    LogsFrom registry u budget ds.length i
      (agendaFrom registry (Directives.parse u.doc).uses i ds) := by
  induction ds generalizing i with
  | nil =>
      intro previous session pre applied _
      exact ⟨[], rfl, trivial, rfl⟩
  | cons d ds ih =>
      intro previous session pre applied earlier
      have here : u.items[i]? = some d := by
        rw [← List.head?_drop, rest, List.head?_cons]
      have rest' : u.items.drop (i + 1) = ds := by
        rw [← List.tail_drop, rest, List.tail_cons]
      have place : (pre ++ d :: ds).length - (ds.length + 1) = pre.length := by
        rw [List.length_append, List.length_cons]
        omega
      have read : (pre ++ d :: ds)[pre.length]? = some d := by simp
      have foreign : ∀ t ∈ agendaFrom registry (Directives.parse u.doc).uses (i + 1) ds,
          i < t.item := fun t member => le_item_of_mem_agendaFrom member
      have slot : OnSlot u previous i pre.length (d :: ([] ++ u.items.drop (i + 1))) :=
        onSlot_of_earlier earlier (by rw [rest', rest, List.nil_append])
      obtain ⟨log, follows, chain, run⟩ := passes_log foreign (ih (i + 1) rest')
        (planned registry (Directives.parse d.doc).uses (Directives.parse u.doc).uses) previous
        session pre d [] applied (fun q same => Nat.lt_succ_of_lt (earlier q same)) slot
      rw [List.nil_append, rest'] at chain run
      refine ⟨log, follows, ?_, ?_⟩
      · rw [rest]
        exact chain
      · rw [rest, List.length_cons, itemsFromEnd_succ]
        simp only [place, read, Option.bind_some]
        rw [plan_eq distinct (nodup_uses _)]
        rw [here, Option.bind_some] at run
        exact run

/-- **The schedule of an expansion.** Whatever the handlers do, an expansion runs a log of passes
that follows the agenda of the unit as it was, each pass on the slot of its item, and ends as its
last pass says, with the number of passes run. No pass runs twice, and the items are taken in
source order. -/
theorem schedule (registrations : List (String × Handler σ)) (budget : Nat) (session : Session σ)
    (u : SourceUnit) :
    let registry := Registry.ofList registrations
    ∃ log, Follows (agenda registry u) log ∧
      Chained u budget none session u.items log ∧
      run registry budget session u = ended 0 session u.items log ∧
      (log.map (·.task.key)).Nodup ∧
      log.Pairwise fun p q => p.task.item ≤ q.task.item := by
  intro registry
  have distinct : registry.Distinct := Registry.distinct_ofList registrations
  have logs : LogsFrom registry u budget u.items.length 0 (agenda registry u) :=
    items_log distinct u.items 0 List.drop_zero
  obtain ⟨log, follows, chain, ran⟩ := logs none session [] 0 (by rintro q ⟨⟩)
  simp only [List.drop_zero, List.nil_append] at chain ran
  have order := pairwise_agendaFrom registry (Directives.parse u.doc).uses 0 u.items
  have once := nodup_agendaFrom distinct (Directives.parse u.doc).uses 0 u.items
  refine ⟨log, follows, chain, ran, ?_, ?_⟩
  · have keys := once.sublist (follows.sublist.map Task.key)
    rwa [List.map_map] at keys
  · have sorted : (log.map (·.task)).Pairwise fun t t' => t.item ≤ t'.item :=
      order.sublist follows.sublist
    rwa [List.pairwise_map] at sorted

/-- The first of two items asks for two handlers and the first of these deletes it: the log has this
pass and that of the second item. -/
example :
    let delete : Handler Unit := fun _ _ _ _ => ⟨(), [.delete], [], .ok .continue⟩
    let leave : Handler Unit := fun _ _ _ _ => ⟨(), [], [], .ok .skipChildren⟩
    let registry := Registry.ofList [("delete", delete), ("leave", leave)]
    let a : Node := ⟨.decl, "fn", .detached, some "macro:use delete, leave", []⟩
    let b : Node := ⟨.decl, "fn", .detached, some "macro:use leave", []⟩
    let u : SourceUnit := .ofItems ⟨⟨"a.rmc"⟩, ""⟩ none [a, b]
    let pass (t : Task Unit) (session : Session Unit) (n : Node) (after : List Node) : Pass Unit :=
      ⟨t, session, [], n, after, visit t.handler (contextOf u t) (some (Parent.of u.root)) 2 session
        [] n after .detached⟩
    let log := [pass ⟨0, "delete", delete⟩ ⟨(), [], 0⟩ a [b],
      pass ⟨1, "leave", leave⟩ ⟨(), [], 1⟩ b []]
    (agenda registry u).map Task.key = [(0, "delete"), (0, "leave"), (1, "leave")] ∧
      Follows (agenda registry u) log :=
  ⟨by decide, _, rfl, _, rfl, rfl⟩

end Graft.Expansion
