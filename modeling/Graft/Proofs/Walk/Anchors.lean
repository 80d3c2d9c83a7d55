import Graft.Proofs.Walk.Ending
import Graft.Proofs.Walk.Spans

/-!
# What a failure points at

Handlers can take the places of nodes away: they exchange nodes for others that have none, wrap
them, move them, or clear their children. Still, a walk that starts on a node with a place has a
place for every call. The place of a call is that of the node it is on, or else the one that was
passed on to the node, and what the walk passes on to the children is given whenever the place of
the node was. This is `ZipperWalk.visit_anchored` for the spans that are not empty: a tree in which
every node has either no place or a span that is not empty is any tree at all, so every handler
keeps that (`Handler.keeps_nonempty`).

`Flow.Pinpoints` says what this means for a walk and the list of its calls. A fault ends the walk
with a failure. The failure has a place unless the fault named one, and both the failure and its
report have the position at which that place starts.
-/

namespace Graft

variable {σ : Type}

theorem Node.within_nonempty (n : Node) : n.Within fun s => s.isEmpty = false :=
  fun m _ => Bool.eq_false_or_eq_true m.span.isEmpty

theorem Handler.keeps_nonempty (h : Handler σ) :
    h.Keeps (Node.Within fun s => s.isEmpty = false) := by
  intro ctx phase cursor state n _ _ e _
  cases e with
  | delete => trivial
  | replace m => exact m.within_nonempty
  | insertBefore m => exact m.within_nonempty
  | insertAfter m => exact m.within_nonempty
  | modify f => exact fun m _ => (f m).within_nonempty

variable {h : Handler σ} {ctx : Context} {budget : Nat} {session : Session σ} {n : Node}

/-- A failure in the visit of a node with a place is that of a call with a place. -/
theorem ZipperWalk.visit_anchored_of_nonempty {parent : Option Parent} {done todo : List Node}
    {fallback : Span} {v : Visit σ} (given : n.span.isEmpty = false)
    (visited : visit h ctx parent budget session done n todo fallback = some v) :
    v.flow.Anchored ctx fun s => s.isEmpty = false := by
  have start : (n.span.orElse fallback).isEmpty = false := by
    rwa [Span.orElse, if_neg (by simp [given])]
  exact visit_anchored h.keeps_nonempty visited n.within_nonempty start

/-- How a walk ended, together with its reports and its calls. -/
structure Flow.Pinpoints (flow : Flow) (source : SourceText) (reports : List Report)
    (events : List Event) : Prop where
  /-- A call that fails makes the walk fail with its fault. -/
  fails : ∀ e ∈ events, ∀ fault, e.outcome = .error fault →
    ∃ f, flow = .failed f ∧ f.fault = fault
  /-- The failure has a place, unless the fault named the place. -/
  nonempty : ∀ f, flow = .failed f → f.fault.span? = none → f.span.isEmpty = false
  /-- The failure is at the position where its place starts. -/
  position : ∀ f, flow = .failed f → f.position = Position.ofOffset source.text f.span.start
  /-- The last report is that of the failure, at the same position. -/
  reported : ∀ f, flow = .failed f → ∃ earlier, reports = earlier ++
    [⟨.error, source.path, Position.ofOffset source.text f.span.start,
      f.handlerName ++ ": " ++ f.fault.message⟩]

theorem Account.pinpoints {before after : Session σ} {flow : Flow} {events : List Event}
    (account : Account ctx.source before after flow events)
    (anchored : flow.Anchored ctx fun s => s.isEmpty = false) :
    flow.Pinpoints ctx.source after.reports events := by
  have position : ∀ f, flow = .failed f →
      f.position = Position.ofOffset ctx.source.text f.span.start := by
    intro f failed
    rw [failed] at anchored
    obtain ⟨span, -, failure⟩ := anchored
    rw [failure]
    rfl
  refine ⟨fun e member fault => account.fault_of_mem member, ?_, position, ?_⟩
  · intro f failed
    rw [failed] at anchored
    exact anchored.points
  · intro f failed
    have reports := account.reports
    rw [failed, Flow.reports, position f failed] at reports
    exact ⟨_, reports⟩

namespace Walk

/-- **Failures keep a place.** In a walk that starts on a node with a place, over a root or from a
place of a child list, and whatever the handler does to the nodes, a call that fails ends the walk
with its fault. Unless the fault named a place, that of the failure is not empty, and the failure
and its report have the position at which it starts. -/
theorem failures_pinpoint (h : Handler σ) (ctx : Context) (budget : Nat) (session : Session σ) :
    (∀ root, root.span.isEmpty = false → ∀ r, run h ctx budget session root = some r →
      ∃ events,
        run (traced h) ctx budget (session.traced []) root = some (r.traced events) ∧
        r.flow.Pinpoints ctx.source r.session.reports events) ∧
    ∀ slots place parent n, slots[place]? = some n → n.span.isEmpty = false →
      ∀ v, runSlot h ctx budget session slots place parent = some v →
        ∃ events,
          runSlot (traced h) ctx budget (session.traced []) slots place parent =
            some (v.traced events) ∧
          v.flow.Pinpoints ctx.source v.session.reports events := by
  constructor
  · intro root given r ran
    obtain ⟨events, listed, account⟩ := run_account ran
    rw [ZipperWalk.run_eq] at ran
    obtain ⟨visit, visited, rfl⟩ := Option.map_eq_some_iff.mp ran
    exact ⟨events, listed, account.pinpoints (ZipperWalk.visit_anchored_of_nonempty given visited)⟩
  · intro slots place parent n here given v ran
    obtain ⟨events, listed, account⟩ := runSlot_account ran
    obtain ⟨visit, visited, rfl⟩ := ZipperWalk.exists_visit here ran
    exact ⟨events, listed, account.pinpoints (ZipperWalk.visit_anchored_of_nonempty given visited)⟩

/-- Exchange every declaration for one that has no place, with a statement and an identifier in it
that have none, and on the way up delete the identifier and fail. -/
def displacing : Handler Unit := fun _ phase cursor state =>
  let stands (kind : Kind) := cursor.node?.any fun n => n.kind = kind
  match phase with
  | .pre =>
    let bare : Node := .list .decl "fn" [.list .stmt "call" [.ident "Y"]]
    ⟨state, if stands .decl then [.replace bare] else [], [], .ok .continue⟩
  | .post =>
    if stands .ident then ⟨state, [.delete], [], .error (.failed "no" none)⟩
    else ⟨state, [], [], .ok .continue⟩

theorem failures_pinpoint_displacing :
    let ctx : Context := ⟨⟨⟨"a.rmc"⟩, "(fn X)\n(fn Y)\n"⟩, ⟨[]⟩, ⟨[]⟩, "displace"⟩
    let item : Node := ⟨.decl, "fn", ⟨7, 13⟩, none, [⟨.ident, "Y", ⟨11, 12⟩, none, []⟩]⟩
    let parent : Parent := ⟨.unit, "", .detached⟩
    let failure : PassFailure := ⟨"displace", ⟨7, 13⟩, ⟨2, 1⟩, .failed "no" none⟩
    item.span.isEmpty = false ∧ failure.fault.span? = none ∧
    (∃ r events, run displacing ctx 9 ⟨(), [], 0⟩ item = some r ∧ r.flow = .failed failure ∧
      r.flow.Pinpoints ctx.source r.session.reports events) ∧
    ∃ v events, runSlot displacing ctx 9 ⟨(), [], 0⟩ [.ident "X", item] 1 parent = some v ∧
      v.flow = .failed failure ∧ v.flow.Pinpoints ctx.source v.session.reports events := by
  intro ctx item parent failure
  obtain ⟨overRoot, fromPlace⟩ := failures_pinpoint displacing ctx 9 ⟨(), [], 0⟩
  refine ⟨rfl, rfl, ?_, ?_⟩
  · have ended : (run displacing ctx 9 ⟨(), [], 0⟩ item).map (·.flow) =
        some (.failed failure) := by decide +kernel
    obtain ⟨r, ran, flow⟩ := Option.map_eq_some_iff.mp ended
    obtain ⟨events, -, pinpoints⟩ := overRoot item rfl r ran
    exact ⟨r, events, ran, flow, pinpoints⟩
  · have ended : (runSlot displacing ctx 9 ⟨(), [], 0⟩ [.ident "X", item] 1 parent).map (·.flow) =
        some (.failed failure) := by decide +kernel
    obtain ⟨v, ran, flow⟩ := Option.map_eq_some_iff.mp ended
    obtain ⟨events, -, pinpoints⟩ := fromPlace _ 1 parent item rfl rfl v ran
    exact ⟨v, events, ran, flow, pinpoints⟩

end Walk

end Graft
