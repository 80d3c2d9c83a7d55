import Graft.Handler

/-!
# Walks

A walk takes one handler over one node and everything below it, depth first, children in order.
Every node that is reached is visited before its children and once more after them, each time
with a fresh cursor on its place. Edits take effect at once, and the walk keeps the index of the
node it is at:

* nodes inserted before it are not visited, nodes inserted after it are;
* when the first visit exchanges the node, the children of the new node are walked, and it is the
  new node that gets the second visit;
* a deleted node and what is below it get no further visit.

A verdict `stop` and a fault end the walk at once, wherever they occur. A fault is reported at the
span that the handler gave, and else at the span of the node, or of the nearest node above it that
has one.

A handler can insert nodes forever, so a walk has a budget, which bounds how deeply its steps
nest. A walk that spends its budget has no result. A larger budget never changes a result.
-/

namespace Graft

/-- What a pass has gathered so far. -/
structure Session (σ : Type) where
  /-- The state that the handlers share. -/
  state : σ
  reports : List Report
  /-- The number of handler calls. -/
  visits : Nat

/-- How a walk goes on, or why it does not. -/
inductive Flow where
  | next
  | stop
  | failed (failure : PassFailure)
deriving DecidableEq, Repr

/-- The flow that a verdict asks for. -/
def Verdict.flow : Verdict → Flow
  | .stop => .stop
  | _ => .next

/-- What a walk over one place of a child list leaves behind. -/
structure Visited (σ : Type) where
  session : Session σ
  /-- The child list. -/
  slots : List Node
  flow : Flow
  /-- Where the walked node now stands; nothing once it was deleted. -/
  position : Option Nat
  /-- The place to go on from. -/
  next : Nat

/-- What a walk over a child list leaves behind. -/
structure Walked (σ : Type) where
  session : Session σ
  slots : List Node
  flow : Flow

/-- The result of one handler call. -/
structure Called (σ : Type) where
  session : Session σ
  cursor : Cursor
  outcome : Except PassFailure Verdict

namespace Walk

variable {σ : Type}

/-- The report and the failure that a fault becomes, `span` being the place of the visited
node. -/
def failure (ctx : Context) (span : Span) (fault : HandlerFault) : PassFailure :=
  let span := fault.span?.getD span
  ⟨ctx.handlerName, span, ctx.source.position span, fault⟩

/-- The report of a failure. -/
def failureReport (ctx : Context) (f : PassFailure) : Report :=
  ⟨.error, ctx.source.path, f.position, f.handlerName ++ ": " ++ f.fault.message⟩

/-- Call the handler on the node at a place. -/
def call (h : Handler σ) (ctx : Context) (phase : Phase) (session : Session σ)
    (slots : List Node) (place : Nat) (parent : Option Parent) (span : Span) : Called σ :=
  let cursor := Cursor.bind slots place parent
  let reply := h ctx phase cursor session.state
  let reports := session.reports ++ reply.notices.map (Report.ofNotice ctx.source)
  let cursor := cursor.apply reply.edits
  match reply.outcome with
  | .ok verdict => ⟨⟨reply.state, reports, session.visits + 1⟩, cursor, .ok verdict⟩
  | .error fault =>
    let f := failure ctx span fault
    ⟨⟨reply.state, reports ++ [failureReport ctx f], session.visits + 1⟩, cursor, .error f⟩

/-- The end of a walk over one place after the last handler call on it. -/
def Called.leave (c : Called σ) : Visited σ :=
  let position := if c.cursor.removed then none else some c.cursor.place
  let next := if c.cursor.removed then c.cursor.place else c.cursor.place + 1
  match c.outcome with
  | .ok verdict => ⟨c.session, c.cursor.slots, verdict.flow, position, next⟩
  | .error f => ⟨c.session, c.cursor.slots, .failed f, position, next⟩

mutual

/-- Walk the node at a place of a child list, and what is below it. -/
def slot (h : Handler σ) (ctx : Context) (parent : Option Parent) :
    (budget : Nat) → (session : Session σ) → (slots : List Node) → (place : Nat) →
    (fallback : Span) → Option (Visited σ)
  | 0, _, _, _, _ => none
  | budget + 1, session, slots, place, fallback =>
    match slots[place]? with
    | none => some ⟨session, slots, .next, none, place⟩
    | some n =>
      let span := n.span.orElse fallback
      let c := call h ctx .pre session slots place parent span
      let here := c.cursor.place
      match c.outcome, c.cursor.node? with
      | .ok .continue, some m =>
        match children h ctx (Parent.of m) budget c.session m.children 0 (m.span.orElse span) with
        | none => none
        | some w =>
          let slots := c.cursor.slots.set here { m with children := w.slots }
          match w.flow with
          | .next => some (Called.leave (call h ctx .post w.session slots here parent span))
          | flow => some ⟨w.session, slots, flow, some here, here + 1⟩
      | .ok .skipChildren, some _ =>
        some (Called.leave (call h ctx .post c.session c.cursor.slots here parent span))
      | _, _ => some (Called.leave c)

/-- Walk the nodes of a child list from a place on. -/
def children (h : Handler σ) (ctx : Context) (parent : Parent) :
    (budget : Nat) → (session : Session σ) → (slots : List Node) → (place : Nat) →
    (fallback : Span) → Option (Walked σ)
  | 0, _, _, _, _ => none
  | budget + 1, session, slots, place, fallback =>
    if place < slots.length then
      match slot h ctx (some parent) budget session slots place fallback with
      | none => none
      | some v =>
        match v.flow with
        | .next => children h ctx parent budget v.session v.slots v.next fallback
        | flow => some ⟨v.session, v.slots, flow⟩
    else some ⟨session, slots, .next⟩

end

/-- Walk the node at a place of the child list of `parent`. -/
def runSlot (h : Handler σ) (ctx : Context) (budget : Nat) (session : Session σ)
    (slots : List Node) (place : Nat) (parent : Parent) : Option (Visited σ) :=
  slot h ctx (some parent) budget session slots place parent.span

/-- What a walk over a root leaves behind. -/
structure Rooted (σ : Type) where
  session : Session σ
  root : Node
  flow : Flow

/-- Walk a root and what is below it. The root is in no child list: the handler can exchange it,
but neither delete it nor give it siblings. For the walk it is moved to a list of one, and at the
end the last node of that list is moved back over the placeholder that was left for it. -/
def run (h : Handler σ) (ctx : Context) (budget : Nat) (session : Session σ) (root : Node) :
    Option (Rooted σ) :=
  (slot h ctx none budget session [root] 0 .detached).map fun v =>
    ⟨v.session, v.slots.getLast?.getD .placeholder, v.flow⟩

end Walk

end Graft
