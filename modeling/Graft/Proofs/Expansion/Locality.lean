import Graft.Proofs.Expansion.Schedule
import Graft.Proofs.Walk.Insertions

/-!
# Where an expansion changes a unit

All passes of an expansion edit one list. `locality` says that they do not get in each other's
way: the list at the end is a sequence of blocks, one for each item of the unit as it was, in the
same order. The block of an item has what the passes over that item inserted before it, the node
that is now in its slot, and what they inserted after it. Everything in a block that is not the
item was put there by a handler, in a call on the slot of the item, and an empty slot was emptied
by one. An item without a pass is its own block. All this holds however the expansion ended.

`OnItem` is the invariant of the log: the list before the slot of the item at hand is made of the
blocks of earlier items and the start of its own, the list after it is made of the rest of its own
block and of the later items, which are as they were. `reached_snoc` keeps it over a pass.
-/

namespace Graft.Expansion

open ZipperWalk (Asked)

variable {σ : Type}

/-! ### Blocks -/

/-- The nodes that a pass added before the node it was bound to. -/
def Pass.ahead (p : Pass σ) : List Node :=
  match p.result with
  | none => []
  | some v => v.zipper.done.drop p.before.length

/-- The nodes that a pass added after the node it was bound to. -/
def Pass.behind (p : Pass σ) : List Node :=
  match p.result with
  | none => []
  | some v => v.zipper.todo.take (v.zipper.todo.length - p.after.length)

/-- The node that a pass left in the slot of its item. -/
def Pass.leaves (p : Pass σ) : Option Node := p.result.bind (·.zipper.node?)

/-- An edit that the handler of a pass asked for in a call on the slot of its item. -/
def Pass.AskedFor (u : SourceUnit) (p : Pass σ) (e : Edit) : Prop :=
  ∃ v, p.result = some v ∧
    Asked p.task.handler (contextOf u p.task) (some (Parent.of u.root)) p.before p.after v.calls e

/-- What a pass changed next to its item and in its slot is what its handler asked for. -/
structure Pass.Accounted (u : SourceUnit) (p : Pass σ) : Prop where
  ahead : ∀ n ∈ p.ahead, p.AskedFor u (.insertBefore n)
  behind : ∀ n ∈ p.behind, p.AskedFor u (.insertAfter n)
  gone : p.leaves = none → p.AskedFor u .delete

/-- What stands for an item after some passes over it. -/
def blockOf (d : Node) (own : List (Pass σ)) : Zipper where
  done := own.flatMap Pass.ahead
  node? := match own.getLast? with
    | none => some d
    | some p => p.leaves
  todo := own.reverse.flatMap Pass.behind

/-- What stands for the item with an index after the passes of a log. -/
def block (log : List (Pass σ)) (i : Nat) (d : Node) : Zipper :=
  blockOf d (log.filter fun p => p.task.item = i)

/-- The blocks of items, the first of which has the index `i`. -/
def laidOut (log : List (Pass σ)) (i : Nat) (items : List Node) : List Node :=
  (items.zipIdx i).flatMap fun d => (block log d.2 d.1).nodes

variable {u : SourceUnit} {log : List (Pass σ)} {p : Pass σ} {i : Nat} {d : Node}
variable {items : List Node}

theorem block_of_unpassed (unpassed : ∀ p ∈ log, p.task.item ≠ i) (d : Node) :
    block log i d = ⟨[], some d, []⟩ := by
  have own : (log.filter fun p => p.task.item = i) = [] := by
    apply List.filter_eq_nil_iff.mpr
    intro p member
    simpa using unpassed p member
  rw [block, own]
  rfl

theorem block_snoc_self (log : List (Pass σ)) (p : Pass σ) (d : Node) :
    block (log ++ [p]) p.task.item d =
      ⟨(block log p.task.item d).done ++ p.ahead, p.leaves,
        p.behind ++ (block log p.task.item d).todo⟩ := by
  have own : ([p].filter fun q => q.task.item = p.task.item) = [p] := by simp
  simp [block, blockOf, own]

theorem block_snoc_of_ne (other : p.task.item ≠ i) (d : Node) :
    block (log ++ [p]) i d = block log i d := by
  have own : ([p].filter fun q => q.task.item = i) = [] := by simp [other]
  rw [block, block, List.filter_append, own, List.append_nil]

theorem laidOut_cons (log : List (Pass σ)) (i : Nat) (d : Node) (items : List Node) :
    laidOut log i (d :: items) = (block log i d).nodes ++ laidOut log (i + 1) items := rfl

theorem laidOut_append (log : List (Pass σ)) (i : Nat) (a b : List Node) :
    laidOut log i (a ++ b) = laidOut log i a ++ laidOut log (i + a.length) b := by
  rw [laidOut, List.zipIdx_append, List.flatMap_append]
  rfl

/-- Items after all passes are as they were. -/
theorem laidOut_of_later (later : ∀ p ∈ log, p.task.item < i) (items : List Node) :
    laidOut log i items = items := by
  induction items generalizing i with
  | nil => rfl
  | cons d items ih =>
      rw [laidOut_cons, block_of_unpassed fun p member => Nat.ne_of_lt (later p member),
        ih fun p member => Nat.lt_succ_of_lt (later p member)]
      rfl

/-- A pass changes no block before that of its item. -/
theorem laidOut_snoc_of_earlier (earlier : i + items.length ≤ p.task.item) :
    laidOut (log ++ [p]) i items = laidOut log i items := by
  induction items generalizing i with
  | nil => rfl
  | cons d items ih =>
      rw [List.length_cons] at earlier
      rw [laidOut_cons, laidOut_cons, block_snoc_of_ne (by omega), ih (by omega)]

/-- The blocks of a list, cut at the block of one item. -/
theorem laidOut_split (log : List (Pass σ)) (here : items[i]? = some d) :
    laidOut log 0 items = laidOut log 0 (items.take i) ++
      ((block log i d).nodes ++ laidOut log (i + 1) (items.drop (i + 1))) := by
  obtain ⟨inside, rfl⟩ := List.getElem?_eq_some_iff.mp here
  have parts : items = items.take i ++ items[i] :: items.drop (i + 1) := by simp
  have length : (items.take i).length = i := by
    rw [List.length_take]
    omega
  conv_lhs => rw [parts]
  rw [laidOut_append, laidOut_cons, length, Nat.zero_add]

/-! ### The invariant of a log -/

/-- What stands before and after the slot of an item: the blocks of the items before it and what
was inserted next to it, and the items after it as they were. -/
structure OnItem (u : SourceUnit) (log : List (Pass σ)) (i : Nat) (d : Node)
    (before after : List Node) : Prop where
  item : u.items[i]? = some d
  before : before = laidOut log 0 (u.items.take i) ++ (block log i d).done
  after : after = (block log i d).todo ++ u.items.drop (i + 1)

/-- A list that the passes of a log lead to. -/
structure Reached (u : SourceUnit) (log : List (Pass σ)) (items : List Node) : Prop where
  laid : items = laidOut log 0 u.items
  last : ∀ q, log.getLast? = some q → ∃ v d, q.result = some v ∧ items = v.zipper.nodes ∧
    OnItem u log q.task.item d v.zipper.done v.zipper.todo

theorem reached_nil (u : SourceUnit) : Reached u ([] : List (Pass σ)) u.items :=
  ⟨(laidOut_of_later (by simp) u.items).symm, by simp⟩

/-- The first pass over an item starts where the item stands as it was. -/
theorem onItem_of_first {before after : List Node} {node : Node}
    (later : ∀ q ∈ log, q.task.item < i) (here : node :: after = u.items.drop i)
    (laid : before ++ node :: after = laidOut log 0 u.items) :
    OnItem u log i node before after := by
  have item : u.items[i]? = some node := by
    rw [← List.head?_drop, ← here, List.head?_cons]
  have rest : after = u.items.drop (i + 1) := by
    rw [← List.tail_drop, ← here, List.tail_cons]
  have alone := block_of_unpassed (fun q member => Nat.ne_of_lt (later q member)) node
  have others := laidOut_of_later (fun q member => Nat.lt_succ_of_lt (later q member))
    (u.items.drop (i + 1))
  refine ⟨item, ?_, by rw [alone, rest]; rfl⟩
  rw [laidOut_split log item, alone, others, ← rest] at laid
  rw [alone, List.append_nil]
  exact List.append_cancel_right laid

/-- The list that a visit leaves, cut at the node that it has left in its place. -/
theorem zipper_of_position {v : ZipperWalk.Visit σ} {before after : List Node} {node : Node}
    (cut : before ++ node :: after = v.zipper.nodes)
    (position : v.visited.position = some before.length) :
    v.zipper = ⟨before, some node, after⟩ := by
  obtain ⟨session, ⟨done, stands, todo⟩, flow, calls⟩ := v
  obtain ⟨m, rfl, length⟩ := Option.map_eq_some_iff.mp position
  rw [Zipper.nodes_some] at cut
  obtain ⟨rfl, rest⟩ := List.append_inj cut length.symm
  cases rest
  rfl

/-- Every pass starts on the slot of its item. -/
theorem onItem_of_onSlot (reached : Reached u log items)
    (sorted : (log ++ [p]).Pairwise fun q q' => q.task.item ≤ q'.task.item)
    (cut : p.before ++ p.node :: p.after = items)
    (slot : OnSlot u log.getLast? p.task.item p.before.length (p.node :: p.after)) :
    ∃ d, OnItem u log p.task.item d p.before p.after := by
  obtain ⟨inner, -, upTo⟩ := List.pairwise_append.mp sorted
  have earlier : ∀ q ∈ log, q.task.item ≤ p.task.item := fun q member =>
    upTo q member p List.mem_cons_self
  cases last : log.getLast? with
  | none =>
      rw [last] at slot
      have empty : log = [] := List.getLast?_eq_none_iff.mp last
      exact ⟨p.node, onItem_of_first (by simp [empty]) slot (cut.trans reached.laid)⟩
  | some q =>
      rw [last, OnSlot] at slot
      split at slot
      · next same =>
          obtain ⟨v, d, result, nodes, on⟩ := reached.last q last
          rw [result, Option.bind_some] at slot
          have left := zipper_of_position (cut.trans nodes) slot
          rw [same, left] at on
          exact ⟨d, on⟩
      · next other =>
          obtain ⟨init, rfl⟩ := List.getLast?_eq_some_iff.mp last
          obtain ⟨-, -, upToLast⟩ := List.pairwise_append.mp inner
          have before : q.task.item < p.task.item :=
            Nat.lt_of_le_of_ne (earlier q (by simp)) other
          have later : ∀ q' ∈ init ++ [q], q'.task.item < p.task.item := by
            intro q' member
            rcases List.mem_append.mp member with first | second
            · exact Nat.lt_of_le_of_lt (upToLast q' first q List.mem_cons_self) before
            · rwa [List.mem_singleton.mp second]
          exact ⟨p.node, onItem_of_first later slot (cut.trans reached.laid)⟩

/-- A pass adds nodes to the lists on either side of its slot. -/
theorem sides_of_grown {asked : Edit → Prop} {v : ZipperWalk.Visit σ} (result : p.result = some v)
    (grown : Zipper.Grown asked ⟨p.before, some p.node, p.after⟩ v.zipper) :
    (v.zipper.done = p.before ++ p.ahead ∧ ∀ n ∈ p.ahead, asked (.insertBefore n)) ∧
      v.zipper.todo = p.behind ++ p.after ∧ ∀ n ∈ p.behind, asked (.insertAfter n) := by
  obtain ⟨⟨ahead, before, inserted⟩, ⟨behind, after, inserted'⟩, -⟩ := grown
  have first : p.ahead = ahead := by simp [Pass.ahead, result, before]
  have second : p.behind = behind := by simp [Pass.behind, result, after]
  rw [first, second]
  exact ⟨⟨before, inserted⟩, after, inserted'⟩

/-- A pass on the slot of its item keeps the invariant. -/
theorem reached_snoc {v : ZipperWalk.Visit σ}
    (earlier : ∀ q ∈ log, q.task.item ≤ p.task.item)
    (on : OnItem u log p.task.item d p.before p.after) (result : p.result = some v)
    (before : v.zipper.done = p.before ++ p.ahead) (after : v.zipper.todo = p.behind ++ p.after) :
    Reached u (log ++ [p]) v.zipper.nodes := by
  have later : ∀ q ∈ log ++ [p], q.task.item < p.task.item + 1 := by
    intro q member
    rcases List.mem_append.mp member with first | second
    · exact Nat.lt_succ_of_le (earlier q first)
    · rw [List.mem_singleton.mp second]
      exact Nat.lt_succ_self _
  have inside : 0 + (u.items.take p.task.item).length ≤ p.task.item := by
    rw [Nat.zero_add, List.length_take]
    exact Nat.min_le_left _ _
  have own := block_snoc_self log p d
  have others : laidOut (log ++ [p]) 0 (u.items.take p.task.item) =
      laidOut log 0 (u.items.take p.task.item) := laidOut_snoc_of_earlier inside
  have on' : OnItem u (log ++ [p]) p.task.item d v.zipper.done v.zipper.todo := by
    refine ⟨on.item, ?_, ?_⟩
    · rw [own, others, before, on.before, List.append_assoc]
    · rw [own, after, on.after, List.append_assoc]
  refine ⟨?_, ?_⟩
  · rw [laidOut_split _ on.item, laidOut_of_later later, Zipper.nodes, on'.before, on'.after, own]
    simp [Zipper.nodes, Pass.leaves, result]
  · intro q last
    rw [List.getLast?_concat] at last
    cases last
    exact ⟨v, d, result, rfl, on'⟩

/-- The passes of a chain lead to a list of blocks, and each is accounted for. The induction is on
the passes still to come, with those already run in front. -/
theorem reached_of_chained {budget : Nat} (log rest : List (Pass σ))
    (sorted : (log ++ rest).Pairwise fun q q' => q.task.item ≤ q'.task.item)
    (session : Session σ) (chained : Chained u budget log.getLast? session items rest)
    (ran : ∀ q ∈ rest, q.result.isSome) (reached : Reached u log items) :
    (∃ final, Reached u (log ++ rest) final) ∧ ∀ q ∈ rest, q.Accounted u := by
  induction rest generalizing log session items with
  | nil => exact ⟨⟨items, by rwa [List.append_nil]⟩, by simp⟩
  | cons p rest ih =>
      obtain ⟨-, cut, slot, -, visited, next⟩ := chained
      obtain ⟨v, result⟩ := Option.isSome_iff_exists.mp (ran p List.mem_cons_self)
      rw [result] at visited
      have grown := ZipperWalk.visit_grown visited
      obtain ⟨⟨before, inserted⟩, after, inserted'⟩ := sides_of_grown result grown
      have whole : log ++ p :: rest = (log ++ [p]) ++ rest := by simp
      rw [whole] at sorted
      obtain ⟨sortedHere, -, -⟩ := List.pairwise_append.mp sorted
      obtain ⟨d, on⟩ := onItem_of_onSlot reached sortedHere cut slot
      have earlier : ∀ q ∈ log, q.task.item ≤ p.task.item := fun q member =>
        (List.pairwise_append.mp sortedHere).2.2 q member p List.mem_cons_self
      have chained' : Chained u budget (log ++ [p]).getLast? v.session v.zipper.nodes rest := by
        rw [List.getLast?_concat]
        exact (next v result).2.2
      obtain ⟨final, others⟩ := ih _ sorted v.session chained'
        (fun q member => ran q (List.mem_cons_of_mem _ member))
        (reached_snoc earlier on result before after)
      refine ⟨whole ▸ final, ?_⟩
      intro q member
      rcases List.mem_cons.mp member with rfl | later
      · refine ⟨fun n member => ⟨v, result, inserted n member⟩,
          fun n member => ⟨v, result, inserted' n member⟩, ?_⟩
        intro empty
        rw [Pass.leaves, result] at empty
        exact ⟨v, result, (grown.gone empty).resolve_left (by simp)⟩
      · exact others q later

/-! ### Whole expansions -/

/-- Every pass of a log ended if the last one did. -/
theorem results_of_follows {tasks : List (Task σ)} (follows : Follows tasks log)
    (last : ∀ p, log.getLast? = some p → p.result.isSome) : ∀ p ∈ log, p.result.isSome := by
  induction log generalizing tasks with
  | nil => simp
  | cons p log ih =>
      obtain ⟨rest, -, follows⟩ := follows
      cases log with
      | nil => simpa using last p rfl
      | cons q log =>
          have here : p.result.isSome := by
            cases result : p.result with
            | some v => rfl
            | none =>
                rw [Pass.goOn, result] at follows
                obtain ⟨rest', nothing, -⟩ := follows
                cases nothing
          have others := ih follows fun p member => last p (by rwa [List.getLast?_cons_cons])
          exact List.forall_mem_cons.mpr ⟨here, others⟩

/-- An expansion that ends leaves what its last pass left. -/
theorem ended_cases {applied : Nat} {session : Session σ} {e : Expanded σ}
    (run : ended applied session items log = some e) :
    (log = [] ∧ e.items = items) ∨
      ∃ p v, log.getLast? = some p ∧ p.result = some v ∧ e.items = v.zipper.nodes := by
  rw [ended] at run
  cases last : log.getLast? with
  | none =>
      rw [last] at run
      cases run
      exact Or.inl ⟨List.getLast?_eq_none_iff.mp last, rfl⟩
  | some p =>
      cases result : p.result with
      | none => simp [last, result] at run
      | some v =>
          refine Or.inr ⟨p, v, rfl, result, ?_⟩
          cases flow : v.flow <;> simp only [last, result, flow] at run <;> cases run <;> rfl

/-- The task of a pass is one that the unit asks for. -/
theorem planned_of_mem_log {registry : Registry (Handler σ)}
    (follows : Follows (agenda registry u) log) (member : p ∈ log)
    (here : u.items[p.task.item]? = some d) :
    planned registry (Directives.parse d.doc).uses (Directives.parse u.doc).uses ≠ [] := by
  obtain ⟨d', here', planned⟩ :=
    of_mem_agenda (follows.sublist.subset (List.mem_map_of_mem member))
  cases here.symm.trans here'
  exact List.ne_nil_of_mem planned

/-- The passes of an expansion, from its first item on. -/
theorem exists_log {registry : Registry (Handler σ)} (distinct : registry.Distinct) (budget : Nat)
    (session : Session σ) (u : SourceUnit) :
    ∃ log, Follows (agenda registry u) log ∧ Chained u budget none session u.items log ∧
      run registry budget session u = ended 0 session u.items log ∧
      log.Pairwise fun p q => p.task.item ≤ q.task.item := by
  have logs : LogsFrom registry u budget u.items.length 0 (agenda registry u) :=
    items_log distinct u.items 0 List.drop_zero
  obtain ⟨log, follows, chained, ran⟩ := logs none session [] 0 (by rintro q ⟨⟩)
  simp only [List.drop_zero, List.nil_append] at chained ran
  have order := (pairwise_agendaFrom registry (Directives.parse u.doc).uses 0 u.items).sublist
    follows.sublist
  rw [List.pairwise_map] at order
  exact ⟨log, follows, chained, ran, order⟩

/-- Items that ask for no pass, and items after that of the last pass, have none. -/
theorem unpassed {registry : Registry (Handler σ)} (follows : Follows (agenda registry u) log)
    (sorted : log.Pairwise fun p q => p.task.item ≤ q.task.item) (here : u.items[i]? = some d)
    (spared : planned registry (Directives.parse d.doc).uses (Directives.parse u.doc).uses = [] ∨
      ∃ p, log.getLast? = some p ∧ p.task.item < i) : ∀ p ∈ log, p.task.item ≠ i := by
  rintro p member rfl
  rcases spared with nothing | ⟨q, last, before⟩
  · exact planned_of_mem_log follows member here nothing
  · obtain ⟨init, rfl⟩ := List.getLast?_eq_some_iff.mp last
    rcases List.mem_append.mp member with first | second
    · have upTo := (List.pairwise_append.mp sorted).2.2 p first q List.mem_cons_self
      omega
    · rw [List.mem_singleton.mp second] at before
      exact Nat.lt_irrefl _ before

/-- **Locality.** However an expansion ends, the items it leaves are the blocks of the original
items, in their order, and nothing else of the unit has changed. What a block has besides its item
was inserted next to the item by passes over it. An item that asks for no pass, or that comes
after the item of the last pass, is its own block. -/
theorem locality (registrations : List (String × Handler σ)) {budget : Nat}
    {session : Session σ} {u : SourceUnit} {o : Outcome σ}
    (expanded : expand (Registry.ofList registrations) false budget session u = some o) :
    let registry := Registry.ofList registrations
    ∃ log, Follows (agenda registry u) log ∧ Chained u budget none session u.items log ∧
      run registry budget session u = ended 0 session u.items log ∧
      o.unit = u.withItems (laidOut log 0 u.items) ∧ (∀ p ∈ log, p.Accounted u) ∧
      ∀ i d, u.items[i]? = some d →
        planned registry (Directives.parse d.doc).uses (Directives.parse u.doc).uses = [] ∨
          (∃ p, log.getLast? = some p ∧ p.task.item < i) →
        block log i d = ⟨[], some d, []⟩ := by
  intro registry
  obtain ⟨log, follows, chained, ran, sorted⟩ :=
    exists_log (Registry.distinct_ofList registrations) budget session u
  obtain ⟨e, finished, rfl⟩ := Option.map_eq_some_iff.mp expanded
  rw [ran] at finished
  have results := results_of_follows follows fun p last => by
    rcases ended_cases finished with ⟨rfl, -⟩ | ⟨q, v, last', result, -⟩
    · cases last
    · rw [last] at last'
      cases last'
      rw [result, Option.isSome_some]
  obtain ⟨⟨final, reached⟩, accounted⟩ := reached_of_chained [] log sorted session chained
    results (reached_nil u)
  rw [List.nil_append] at reached
  have items : e.items = laidOut log 0 u.items := by
    rcases ended_cases finished with ⟨empty, same⟩ | ⟨q, v, last, result, same⟩
    · rw [same, empty, (reached_nil u).laid.symm]
    · obtain ⟨v', d, result', nodes, -⟩ := reached.last q last
      rw [result] at result'
      cases result'
      rw [same, ← nodes, reached.laid]
  refine ⟨log, follows, chained, ran, ?_, accounted, ?_⟩
  · simp only [Bool.false_eq_true, if_false, items]
  · intro i d here spared
    exact block_of_unpassed (unpassed follows sorted here spared) d

/-- A handler that puts a node on either side of an item. -/
def framing : Handler Unit := fun _ phase cursor state =>
  let onItem := phase = .pre && cursor.parent.any fun parent => parent.kind = .unit
  let edits := if onItem then
      [Edit.insertBefore (.ident "before"), .insertAfter (.ident "after")]
    else []
  ⟨state, edits, [], .ok .continue⟩

/-- An item that asks for a frame. -/
def framedItem : Node := { Node.list .decl "fn" [.ident "A"] with doc := some "macro:use frame" }

/-- An item that asks for nothing. -/
def plainItem : Node := .list .decl "fn" [.ident "B"]

def framedUnit : SourceUnit := .ofItems ⟨⟨"a.rmc"⟩, ""⟩ none [framedItem, plainItem]

theorem locality_framedUnit :
    let registry := Registry.ofList [("frame", framing)]
    ∃ (o : Outcome Unit) (log : List (Pass Unit)),
      expand registry false 4 ⟨(), [], 0⟩ framedUnit = some o ∧
      o.unit.items = [.ident "before", framedItem, .ident "after", plainItem] ∧
      o.unit = framedUnit.withItems (laidOut log 0 framedUnit.items) ∧
      (∀ p ∈ log, p.Accounted framedUnit) ∧
      block log 1 plainItem = ⟨[], some plainItem, []⟩ := by
  intro registry
  have items : (expand registry false 4 ⟨(), [], 0⟩ framedUnit).map (·.unit.items) =
      some [.ident "before", framedItem, .ident "after", plainItem] := by
    decide +kernel
  obtain ⟨o, expanded, items⟩ := Option.map_eq_some_iff.mp items
  obtain ⟨log, -, -, -, unit, accounted, spared⟩ := locality [("frame", framing)] expanded
  exact ⟨o, log, expanded, items, unit, accounted, spared 1 plainItem rfl (Or.inl (by decide))⟩

end Graft.Expansion
