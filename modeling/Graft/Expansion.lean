import Graft.Registry
import Graft.Walk

/-!
# Expansion of a unit

Expansion applies the handlers that directives ask for to the top-level items of a unit, in source
order. The handlers of an item's own documentation run first, in the order in which it names them.
The handlers of the unit's documentation follow in the order of registration, without those that
the item named itself. Each handler makes one pass, a walk over the item.

Items that handlers insert are kept and get no passes of their own. An item that a pass deletes
gets no further passes. A verdict `stop` ends the expansion with success, a fault ends it with the
failure of the pass.

The place of the next item is found by counting from the end of the list, since passes change only
what stands before the items that are still to come.
-/

namespace Graft

/-- How an expansion ended. -/
inductive Ending where
  | completed
  | stopped
  | failed (failure : PassFailure)
deriving DecidableEq, Repr

/-- What an expansion leaves behind. -/
structure Expanded (σ : Type) where
  session : Session σ
  /-- The top-level items. -/
  items : List Node
  /-- The number of passes that ended without a failure. -/
  applied : Nat
  ending : Ending

namespace Expansion

variable {σ : Type}

/-- The passes over an item: the handlers it asks for itself, then those of the unit that it does
not ask for. -/
def plan (own unit : Selection (Handler σ)) : List (String × Handler σ) :=
  own.entries ++ unit.entries.filter fun e => !own.contains e.1

/-- What the passes over one item leave behind. -/
structure ItemDone (σ : Type) where
  session : Session σ
  items : List Node
  applied : Nat
  /-- How the whole expansion ended, if one of the passes ended it. -/
  ended : Option Ending

/-- Run passes over the item at a place, one after the other. -/
def passes (source : SourceText) (directives unitDirectives : Directives) (parent : Parent)
    (budget : Nat) :
    List (String × Handler σ) → Session σ → List Node → Nat → Nat → Option (ItemDone σ)
  | [], session, items, _, applied => some ⟨session, items, applied, none⟩
  | (name, h) :: rest, session, items, place, applied =>
    let ctx : Context := ⟨source, directives, unitDirectives, name⟩
    match Walk.runSlot h ctx budget session items place parent with
    | none => none
    | some v =>
      match v.flow with
      | .failed f => some ⟨v.session, v.slots, applied, some (.failed f)⟩
      | .stop => some ⟨v.session, v.slots, applied + 1, some .stopped⟩
      | .next =>
        match v.position with
        | none => some ⟨v.session, v.slots, applied + 1, none⟩
        | some place =>
          passes source directives unitDirectives parent budget rest v.session v.slots place
            (applied + 1)

/-- Expand the last `remaining` items of a list, the first of them first. -/
def itemsFromEnd (registry : Registry (Handler σ)) (source : SourceText)
    (unitDirectives : Directives) (parent : Parent) (budget : Nat) :
    (remaining : Nat) → Session σ → List Node → (applied : Nat) → Option (Expanded σ)
  | 0, session, items, applied => some ⟨session, items, applied, .completed⟩
  | remaining + 1, session, items, applied =>
    let place := items.length - (remaining + 1)
    let directives := Directives.parse (items[place]?.bind (·.doc))
    let own := registry.getAsNamed directives.uses
    let unit := registry.get unitDirectives.uses
    match passes source directives unitDirectives parent budget (plan own unit) session items place
        applied with
    | none => none
    | some done =>
      match done.ended with
      | some ending => some ⟨done.session, done.items, done.applied, ending⟩
      | none =>
        itemsFromEnd registry source unitDirectives parent budget remaining done.session done.items
          done.applied

/-- Apply the handlers that the directives of a unit ask for to its items. -/
def run (registry : Registry (Handler σ)) (budget : Nat) (session : Session σ)
    (u : SourceUnit) : Option (Expanded σ) :=
  itemsFromEnd registry u.source (Directives.parse u.doc) (Parent.of u.root) budget u.items.length
    session u.items 0

/-- What applying the handlers to a unit comes to. -/
structure Outcome (σ : Type) where
  session : Session σ
  /-- The unit that the caller now has. -/
  unit : SourceUnit
  applied : Nat
  ending : Ending
  /-- In append mode, what the handlers added or changed. -/
  additions : Option SourceUnit

/-- Apply the handlers to a unit. In append mode the caller keeps the unit as it was, and the
outcome holds what the handlers added. -/
def expand (registry : Registry (Handler σ)) (append : Bool) (budget : Nat) (session : Session σ)
    (u : SourceUnit) : Option (Outcome σ) :=
  (run registry budget session u).map fun e =>
    let after := u.withItems e.items
    if append then
      ⟨e.session, u, e.applied, e.ending,
        match e.ending with
        | .failed _ => none
        | _ => after.additions u⟩
    else ⟨e.session, after, e.applied, e.ending, none⟩

end Expansion

end Graft
