import Graft.Proofs.Walk.Refinement

/-!
# What a visit adds next to a node

A visit leaves the nodes around the visited node as they were. `visit_grown` says where the nodes
come from that it adds next to it: the handler inserted each of them, before the node or after it,
in a call on the place of the node. If the node is gone, the handler deleted it in such a call.
-/

namespace Graft

namespace Zipper

/-- One place of a child list grew from another by insertions next to it and by the deletion of
its node, each of them asked for. -/
structure Grown (asked : Edit → Prop) (z z' : Zipper) : Prop where
  before : ∃ ahead, z'.done = z.done ++ ahead ∧ ∀ n ∈ ahead, asked (.insertBefore n)
  after : ∃ behind, z'.todo = behind ++ z.todo ∧ ∀ n ∈ behind, asked (.insertAfter n)
  gone : z'.node? = none → z.node? = none ∨ asked .delete

namespace Grown

variable {asked asked' : Edit → Prop} {z z' z'' : Zipper}

theorem refl (asked : Edit → Prop) (z : Zipper) : Grown asked z z :=
  ⟨⟨[], (List.append_nil _).symm, by simp⟩, ⟨[], rfl, by simp⟩, Or.inl⟩

theorem trans (first : Grown asked z z') (second : Grown asked z' z'') : Grown asked z z'' := by
  obtain ⟨⟨ahead, before, inserted⟩, ⟨behind, after, inserted'⟩, gone⟩ := first
  obtain ⟨⟨ahead₂, before₂, inserted₂⟩, ⟨behind₂, after₂, inserted₂'⟩, gone₂⟩ := second
  refine ⟨⟨ahead ++ ahead₂, by rw [before₂, before, List.append_assoc], ?_⟩,
    ⟨behind₂ ++ behind, by rw [after₂, after, List.append_assoc], ?_⟩, ?_⟩
  · intro n member
    exact (List.mem_append.mp member).elim (inserted n) (inserted₂ n)
  · intro n member
    exact (List.mem_append.mp member).elim (inserted₂' n) (inserted' n)
  · intro missing
    exact (gone₂ missing).elim gone Or.inr

theorem mono (grown : Grown asked z z') (weaker : ∀ e, asked e → asked' e) :
    Grown asked' z z' := by
  obtain ⟨⟨ahead, before, inserted⟩, ⟨behind, after, inserted'⟩, gone⟩ := grown
  exact ⟨⟨ahead, before, fun n member => weaker _ (inserted n member)⟩,
    ⟨behind, after, fun n member => weaker _ (inserted' n member)⟩,
    fun missing => (gone missing).imp_right (weaker _)⟩

/-- A place with another node in it has the same surroundings. -/
theorem put (asked : Edit → Prop) (z : Zipper) (n : Node) : Grown asked z (z.put n) :=
  ⟨⟨[], (List.append_nil _).symm, by simp⟩, ⟨[], rfl, by simp⟩, fun missing => by cases missing⟩

end Grown

theorem grown_perform (inList : Bool) (z : Zipper) (e : Edit) :
    Grown (· = e) z (z.perform inList e) := by
  have same := Grown.refl (· = e) z
  cases e with
  | replace n =>
      exact ⟨same.before, same.after, fun missing => Or.inl (Option.map_eq_none_iff.mp missing)⟩
  | modify f =>
      exact ⟨same.before, same.after, fun missing => Or.inl (Option.map_eq_none_iff.mp missing)⟩
  | delete =>
      cases inList with
      | false => exact same
      | true => exact ⟨same.before, same.after, fun _ => Or.inr rfl⟩
  | insertBefore n =>
      cases inList with
      | false => exact same
      | true => exact ⟨⟨[n], rfl, by simp⟩, same.after, Or.inl⟩
  | insertAfter n =>
      cases inList with
      | false => exact same
      | true => exact ⟨same.before, ⟨[n], rfl, by simp⟩, Or.inl⟩

theorem grown_apply (inList : Bool) (z : Zipper) (edits : List Edit) :
    Grown (· ∈ edits) z (z.apply inList edits) := by
  induction edits generalizing z with
  | nil => exact Grown.refl _ z
  | cons e edits ih =>
      have first := (grown_perform inList z e).mono fun e' same =>
        (by rw [same]; exact List.mem_cons_self : e' ∈ e :: edits)
      exact first.trans ((ih (z.perform inList e)).mono fun e' => List.mem_cons_of_mem e)

end Zipper

namespace ZipperWalk

open Zipper (Grown)

variable {σ : Type} {h : Handler σ} {ctx : Context} {budget : Nat} {session : Session σ}
variable {done todo : List Node} {n : Node} {fallback : Span} {v : Visit σ}

/-- An edit that the handler asks for in one of these calls, on a place that stands between the
given nodes. -/
def Asked (h : Handler σ) (ctx : Context) (parent : Option Parent) (done todo : List Node)
    (calls : List Call) (e : Edit) : Prop :=
  ∃ phase z state, Call.on phase z parent ∈ calls ∧ done <+: z.done ∧ todo <:+ z.todo ∧
    e ∈ (h ctx phase (z.cursor parent) state).edits

/-- A call on a place changes it as the handler asks. -/
theorem call_grown (h : Handler σ) (ctx : Context) (phase : Phase) (session : Session σ)
    (z : Zipper) (parent : Option Parent) (span : Span) {calls : List Call}
    (listed : Call.on phase z parent ∈ calls) (before : done <+: z.done) (after : todo <:+ z.todo) :
    Grown (Asked h ctx parent done todo calls) z
      (call h ctx phase session z parent span).zipper := by
  rw [zipper_call]
  exact (Zipper.grown_apply parent.isSome z _).mono fun e member =>
    ⟨phase, z, session.state, listed, before, after, member⟩

/-- **Insertions.** What a visit adds next to a node was inserted there by the handler, in a call
on the place of the node. -/
theorem visit_grown {parent : Option Parent}
    (visited : visit h ctx parent budget session done n todo fallback = some v) :
    Grown (Asked h ctx parent done todo v.calls) ⟨done, some n, todo⟩ v.zipper := by
  cases budget with
  | zero => simp [visit] at visited
  | succ budget =>
      have before := call_around h ctx .pre session ⟨done, some n, todo⟩ parent
        (n.span.orElse fallback)
      have first : ∀ calls, Grown (Asked h ctx parent done todo
          (Call.on .pre ⟨done, some n, todo⟩ parent :: calls)) ⟨done, some n, todo⟩
          (call h ctx .pre session ⟨done, some n, todo⟩ parent (n.span.orElse fallback)).zipper :=
        fun calls => call_grown h ctx .pre session _ parent _ List.mem_cons_self
          (List.prefix_refl _) (List.suffix_refl _)
      have ways := visit_cases visited
      simp only at ways
      generalize call h ctx .pre session ⟨done, some n, todo⟩ parent (n.span.orElse fallback) =
        pre at before first ways
      rcases ways with ⟨rfl, -⟩ | ⟨m, -, -, rfl⟩ | ⟨m, w, -, -, -, ⟨-, rfl⟩ | ⟨-, rfl⟩⟩
      · exact first []
      · exact (first _).trans (call_grown h ctx .post pre.session pre.zipper parent _
          (by simp) before.1 before.2)
      · exact (first _).trans (Grown.put _ _ _)
      · refine (first _).trans ((Grown.put _ _ _).trans (call_grown h ctx .post w.session _ parent _
          ?_ before.1 before.2))
        simp

end ZipperWalk

end Graft
