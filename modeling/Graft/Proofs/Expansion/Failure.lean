import Graft.Proofs.Expansion.Locality
import Graft.Proofs.Sexp.Spans
import Graft.Proofs.Walk.Spans

/-!
# Where an expansion fails

A failure should point into the item whose pass has failed. In a unit that was read from a text
every node of an item has a place inside that of the item, and handlers that set no spans never
bring in any other place (`within_of_starts`). So a failure whose fault has no place of its own is
inside the item as long as the node in the slot of the item has a place: `failure_place`.

It need not have one. A pass can exchange the item for a node without a place, and when a later
pass over the item fails, the place that is left to point at is that of the root of the unit. The
root of a unit that was read has none either. The failure is then at the start of the text,
whatever item it belongs to: `failure_detached`.
-/

namespace Graft.Expansion

open ZipperWalk (Visit visit)

variable {σ : Type} {u : SourceUnit} {budget : Nat} {log : List (Pass σ)} {p : Pass σ}

/-- After the passes `front`, the pass is a visit of its item as it was, or of the node that an
earlier pass over the item left in its slot. -/
structure Pass.Starts (u : SourceUnit) (budget : Nat) (front : List (Pass σ)) (p : Pass σ) :
    Prop where
  node : u.items[p.task.item]? = some p.node ∨
    ∃ q ∈ front, q.task.item = p.task.item ∧ q.leaves = some p.node
  visited : visit p.task.handler (contextOf u p.task) (some (Parent.of u.root)) budget p.session
    p.before p.node p.after (Parent.of u.root).span = p.result

/-- The node in the slot of an item, after the passes `front`. -/
theorem node_of_onSlot {front : List (Pass σ)} {items : List Node}
    (left : ∀ q, front.getLast? = some q → ∃ v, q.result = some v ∧ items = v.zipper.nodes)
    (cut : p.before ++ p.node :: p.after = items)
    (slot : OnSlot u front.getLast? p.task.item p.before.length (p.node :: p.after)) :
    u.items[p.task.item]? = some p.node ∨
      ∃ q ∈ front, q.task.item = p.task.item ∧ q.leaves = some p.node := by
  have untouched : p.node :: p.after = u.items.drop p.task.item →
      u.items[p.task.item]? = some p.node := by
    intro here
    rw [← List.head?_drop, ← here, List.head?_cons]
  cases last : front.getLast? with
  | none =>
      rw [last] at slot
      exact Or.inl (untouched slot)
  | some q =>
      rw [last, OnSlot] at slot
      split at slot
      · next same =>
          obtain ⟨v, result, nodes⟩ := left q last
          rw [result, Option.bind_some] at slot
          have zipper := zipper_of_position (cut.trans nodes) slot
          refine Or.inr ⟨q, List.mem_of_getLast? last, same, ?_⟩
          rw [Pass.leaves, result, Option.bind_some, zipper]
      · exact Or.inl (untouched slot)

/-- The passes of a chain start on the slots of their items. The induction is on the passes still
to come, with those already run in front. -/
theorem starts_of_chained (front rest : List (Pass σ)) {session : Session σ} {items : List Node}
    (chained : Chained u budget front.getLast? session items rest)
    (ran : ∀ q ∈ rest, q.result.isSome)
    (left : ∀ q, front.getLast? = some q → ∃ v, q.result = some v ∧ items = v.zipper.nodes)
    {middle later : List (Pass σ)} (split : rest = middle ++ p :: later) :
    p.Starts u budget (front ++ middle) := by
  induction rest generalizing front session items middle with
  | nil => simp at split
  | cons a rest ih =>
      obtain ⟨rfl, cut, slot, -, visited, next⟩ := chained
      cases middle with
      | nil =>
          cases split
          rw [List.append_nil]
          exact ⟨node_of_onSlot left cut slot, visited⟩
      | cons b middle =>
          cases split
          obtain ⟨v, result⟩ := Option.isSome_iff_exists.mp (ran a List.mem_cons_self)
          have onward := (next v result).2.2
          rw [← List.getLast?_concat] at onward
          have after : ∀ q, (front ++ [a]).getLast? = some q →
              ∃ v', q.result = some v' ∧ v.zipper.nodes = v'.zipper.nodes := by
            intro q last
            rw [List.getLast?_concat] at last
            cases last
            exact ⟨v, result, rfl⟩
          have there := ih (front ++ [a]) onward (fun q member => ran q (.tail _ member)) after rfl
          rwa [List.append_assoc] at there

/-- The places in the node that a pass starts on are inside that of its item. -/
theorem within_of_starts (placed : ∀ d ∈ u.items, d.Placed)
    (spans : ∀ q ∈ log, q.task.handler.KeepsSpans)
    (starts : ∀ front q later, log = front ++ q :: later → q.Starts u budget front)
    {front later : List (Pass σ)} (split : log = front ++ p :: later) {d : Node}
    (here : u.items[p.task.item]? = some d) : p.node.Within (Span.Inside · d.span) := by
  -- the pass that left the node may be any earlier one, so the induction is on their number
  induction length : front.length using Nat.strongRecOn generalizing front p later with
  | ind size ih =>
      rcases (starts front p later split).node with untouched | ⟨q, member, same, leaves⟩
      · cases here.symm.trans untouched
        exact (placed p.node (List.mem_of_getElem? here)).within
      · obtain ⟨before, after, rfl⟩ := List.append_of_mem member
        have earlier : log = before ++ q :: (after ++ p :: later) := by simp [split]
        rw [← same] at here
        have within := ih before.length (by simp [← length]) earlier here rfl
        obtain ⟨v, result, stands⟩ := Option.bind_eq_some_iff.mp leaves
        have visited := (starts before q _ earlier).visited
        rw [result] at visited
        have keeps := (spans q (by simp [earlier])).keeps (Span.Inside · d.span)
        refine (ZipperWalk.visit_keeps keeps visited within).1.node ?_ p.node stands
        intro n same
        cases same
        exact within

/-- An expansion that failed has a last pass, which failed. -/
theorem ended_failed {applied : Nat} {session : Session σ} {items : List Node} {e : Expanded σ}
    (run : ended applied session items log = some e) {f : PassFailure}
    (failed : e.ending = .failed f) :
    ∃ front p v, log = front ++ [p] ∧ p.result = some v ∧ v.flow = .failed f := by
  rw [ended] at run
  cases last : log.getLast? with
  | none =>
      simp only [last, Option.some.injEq] at run
      rw [← run] at failed
      cases failed
  | some p =>
      obtain ⟨front, rfl⟩ := List.getLast?_eq_some_iff.mp last
      cases result : p.result with
      | none => simp [last, result] at run
      | some v =>
          refine ⟨front, p, v, rfl, result, ?_⟩
          cases flow : v.flow <;> simp only [last, result, flow, Option.some.injEq] at run <;>
            rw [← run] at failed <;> cases failed
          rfl

/-- Where the last pass over an item has failed: inside the item, or nowhere, and then it started
on a node without a place. -/
theorem place_of_failed {d : Node} {v : Visit σ} {f : PassFailure}
    (visited : visit p.task.handler (contextOf u p.task) (some (Parent.of u.root)) budget p.session
      p.before p.node p.after .detached = some v)
    (spans : p.task.handler.KeepsSpans) (within : p.node.Within (Span.Inside · d.span))
    (failed : v.flow = .failed f) (placeless : f.fault.span? = none) :
    f.span.Inside d.span ∨ f.span = .detached ∧ p.node.span.isEmpty = true := by
  cases empty : p.node.span.isEmpty with
  | false =>
      have here : (p.node.span.orElse .detached).Inside d.span := by
        rw [Span.orElse, empty]
        exact ((Node.within_iff.mp within).1).resolve_left (by simp [empty])
      have keeps := spans.keeps (Span.Inside · d.span)
      have points := (ZipperWalk.visit_keeps keeps visited within).2 here
      rw [failed] at points
      exact Or.inl (points placeless)
  | true =>
      have wider := within.mono (Q := fun s => s.Inside d.span ∨ s = .detached) fun _ => Or.inl
      have here : p.node.span.orElse .detached = .detached := Span.orElse_of_isEmpty empty _
      have points := (ZipperWalk.visit_keeps (spans.keeps _) visited wider).2 (Or.inr here)
      rw [failed] at points
      exact (points placeless).imp_right fun nowhere => ⟨nowhere, rfl⟩

/-- The items of a unit that was read have places, and its root has none. -/
theorem places_of_parse {path : Path} {text : String}
    (parsed : Sexp.frontend.parse path text = .ok u) :
    (∀ d ∈ u.items, d.Placed) ∧ u.root.span = .detached := by
  refine ⟨(Sexp.row_of_parse parsed).placed, ?_⟩
  obtain ⟨doc, items, -, rfl⟩ := Sexp.parse_eq_ok_iff.mp parsed
  rfl

/-- **The place of a failure.** When an expansion of a unit that was read fails, with handlers that
set no spans and a fault that has no place of its own, the failure is inside the item whose pass
has failed. The only exception is a pass that starts on a node without a place, which an earlier
pass over the item has left in its slot. Then the failure may have no place at all. -/
theorem failure_place {path : Path} {text : String}
    (parsed : Sexp.frontend.parse path text = .ok u) {registrations : List (String × Handler σ)}
    (spans : ∀ e ∈ registrations, e.2.KeepsSpans) {append : Bool} {session : Session σ}
    {o : Outcome σ}
    (expanded : expand (Registry.ofList registrations) append budget session u = some o)
    {f : PassFailure} (failed : o.ending = .failed f) (placeless : f.fault.span? = none) :
    let registry := Registry.ofList registrations
    ∃ front p d, Follows (agenda registry u) (front ++ [p]) ∧
      Chained u budget none session u.items (front ++ [p]) ∧
      run registry budget session u = ended 0 session u.items (front ++ [p]) ∧
      p.result.map (·.flow) = some (.failed f) ∧ u.items[p.task.item]? = some d ∧
      (f.span.Inside d.span ∨
        f.span = .detached ∧ p.node.span.isEmpty = true ∧
          ∃ q ∈ front, q.task.item = p.task.item ∧ q.leaves = some p.node) := by
  intro registry
  obtain ⟨placed, rootless⟩ := places_of_parse parsed
  obtain ⟨log, follows, chained, ran, -⟩ :=
    exists_log (Registry.distinct_ofList registrations) budget session u
  obtain ⟨e, finished, rfl⟩ := Option.map_eq_some_iff.mp expanded
  have ending : e.ending = .failed f := by cases append <;> exact failed
  rw [ran] at finished
  obtain ⟨front, p, v, rfl, result, flow⟩ := ended_failed finished ending
  have asked : ∀ q ∈ front ++ [p], q.task ∈ agenda registry u := fun q member =>
    follows.sublist.subset (List.mem_map_of_mem member)
  have keeps : ∀ q ∈ front ++ [p], q.task.handler.KeepsSpans := by
    intro q member
    obtain ⟨d, -, planned⟩ := of_mem_agenda (asked q member)
    exact spans _ (Registry.mem_of_mem_ofList (mem_entries_of_mem_planned planned))
  have results := results_of_follows follows fun q last => by
    rw [List.getLast?_concat] at last
    cases last
    rw [result, Option.isSome_some]
  have starts : ∀ before q later, front ++ [p] = before ++ q :: later →
      q.Starts u budget before := fun before q later split =>
    starts_of_chained [] (front ++ [p]) chained results (by simp) split
  obtain ⟨d, here, -⟩ := of_mem_agenda (asked p (by simp))
  have within := within_of_starts placed keeps starts rfl here
  obtain ⟨node, visited⟩ := starts front p [] rfl
  have root : (Parent.of u.root).span = .detached := rootless
  rw [result, root] at visited
  refine ⟨front, p, d, follows, chained, ran, by rw [result, ← flow]; rfl, here, ?_⟩
  refine (place_of_failed visited (keeps p (by simp)) within flow placeless).imp_right ?_
  rintro ⟨nowhere, empty⟩
  refine ⟨nowhere, empty, node.resolve_left fun untouched => ?_⟩
  -- the item itself has a place
  have inside := (placed p.node (List.mem_of_getElem? untouched)).inside p.node
    (Node.mem_preorder_self p.node)
  rw [inside.isEmpty] at empty
  cases empty

/-- A text with one item that asks for two passes. -/
def askingText : String := ";; macro:use a b\n(fn X)\n"

/-- The unit of that text. -/
def askingUnit : SourceUnit :=
  .ofItems ⟨⟨"a.rmc"⟩, askingText⟩ none
    [⟨.decl, "fn", ⟨17, 23⟩, some "macro:use a b", [⟨.ident, "X", ⟨21, 22⟩, none, []⟩]⟩]

theorem parse_askingText : Sexp.frontend.parse ⟨"a.rmc"⟩ askingText = .ok askingUnit := rfl

/-- A handler that exchanges every node of one kind for a node without a place. -/
def renewing (kind : Kind) (n : Node) : Handler Unit := fun _ phase cursor state =>
  let there := phase = .pre && cursor.node?.any fun m => m.kind = kind
  ⟨state, if there then [.replace n] else [], [], .ok .continue⟩

/-- A handler that fails on nodes of one kind. -/
def failing (kind : Kind) : Handler Unit := fun _ _ cursor state =>
  let there := cursor.node?.any fun m => m.kind = kind
  ⟨state, [], [], if there then .error (.failed "no" none) else .ok .continue⟩

theorem keepsSpans_renewing (kind : Kind) {n : Node}
    (detached : ∀ k ∈ n.preorder, k.span = .detached) : (renewing kind n).KeepsSpans := by
  intro ctx phase cursor state m here e member
  simp only [renewing] at member
  split at member
  · rw [List.mem_singleton.mp member]
    exact fun k below => Or.inl (detached k below)
  · cases member

theorem keepsSpans_failing (kind : Kind) : (failing kind).KeepsSpans := by
  intro ctx phase cursor state m here e member
  cases member

/-- The first pass exchanges the identifier in the item, the second fails on it. -/
theorem failure_place_askingUnit :
    let registrations := [("a", renewing .ident (.ident "Y")), ("b", failing .ident)]
    ∃ (o : Outcome Unit) (f : PassFailure),
      (∀ e ∈ registrations, e.2.KeepsSpans) ∧
      expand (.ofList registrations) false 9 ⟨(), [], 0⟩ askingUnit = some o ∧
      o.ending = .failed f ∧ f.fault.span? = none ∧ f.span.Inside ⟨17, 23⟩ := by
  intro registrations
  have spans : ∀ e ∈ registrations, e.2.KeepsSpans := by
    simp only [registrations, List.forall_mem_cons]
    exact ⟨keepsSpans_renewing _ (by decide), keepsSpans_failing _, by simp⟩
  have ended : (expand (.ofList registrations) false 9 ⟨(), [], 0⟩ askingUnit).map (·.ending) =
      some (.failed ⟨"b", ⟨17, 23⟩, ⟨2, 1⟩, .failed "no" none⟩) := by
    decide +kernel
  obtain ⟨o, expanded, failed⟩ := Option.map_eq_some_iff.mp ended
  obtain ⟨front, p, d, -, -, -, -, here, place⟩ :=
    failure_place parse_askingText spans expanded failed rfl
  have inside := place.resolve_right fun nowhere => by cases nowhere.1
  have only : d = _ := List.mem_singleton.mp (List.mem_of_getElem? here)
  rw [only] at inside
  exact ⟨o, _, spans, expanded, failed, rfl, inside⟩

/-- The first pass exchanges the item for one without a place, the second fails on that. The
failure is at the start of the text, where no item is. -/
theorem failure_detached :
    let registrations :=
      [("a", renewing .decl (.list .decl "fn" [.ident "Y"])), ("b", failing .decl)]
    ∃ (u : SourceUnit) (o : Outcome Unit) (f : PassFailure),
      Sexp.frontend.parse ⟨"a.rmc"⟩ askingText = .ok u ∧
      (∀ e ∈ registrations, e.2.KeepsSpans) ∧
      expand (.ofList registrations) false 9 ⟨(), [], 0⟩ u = some o ∧
      o.ending = .failed f ∧ f.fault.span? = none ∧
      f.span.isEmpty = true ∧ f.position = ⟨1, 1⟩ ∧ ∀ d ∈ u.items, ¬ f.span.Inside d.span := by
  intro registrations
  have spans : ∀ e ∈ registrations, e.2.KeepsSpans := by
    simp only [registrations, List.forall_mem_cons]
    exact ⟨keepsSpans_renewing _ (by decide), keepsSpans_failing _, by simp⟩
  have ended : (expand (.ofList registrations) false 9 ⟨(), [], 0⟩ askingUnit).map (·.ending) =
      some (.failed ⟨"b", .detached, ⟨1, 1⟩, .failed "no" none⟩) := by
    decide +kernel
  obtain ⟨o, expanded, failed⟩ := Option.map_eq_some_iff.mp ended
  refine ⟨askingUnit, o, _, parse_askingText, spans, expanded, failed, rfl, rfl, rfl, ?_⟩
  intro d _ inside
  exact absurd inside.isEmpty (by decide)

end Graft.Expansion
