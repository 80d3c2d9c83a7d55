import Graft.Cursor
import Graft.Directive
import Graft.Report

/-!
# Handlers

A handler is what a directive names. A walk calls it twice for every node that it reaches: before
and after the children of the node. A call sees the context of the pass, the phase, a cursor on
the node and the state that the handlers share, and it answers with a reply: the edits to make
through the cursor, the notices to pass on, the new state, and a verdict or a fault. The edits
count also when the call ends with a fault.
-/

namespace Graft

/-- Which side of a node's children a visit is on. -/
inductive Phase where
  | pre
  | post
deriving DecidableEq, Repr

/-- How a walk goes on after a visit. -/
inductive Verdict where
  /-- Go on. -/
  | continue
  /-- Go on without the children of the node. After the children it means the same as
  `continue`. -/
  | skipChildren
  /-- End the walk at once. -/
  | stop
deriving DecidableEq, Repr

/-- Why a handler failed. -/
inductive HandlerFault where
  /-- A fault in the handler's own words, and its place if the handler knows a better one than
  that of the visited node. -/
  | failed (message : String) (span : Option Span)
  /-- A refused cursor operation. -/
  | cursor (fault : CursorFault)
deriving DecidableEq, Repr

namespace HandlerFault

def message : HandlerFault → String
  | .failed message _ => message
  | .cursor fault => fault.message

/-- The place that the handler itself gave. -/
def span? : HandlerFault → Option Span
  | .failed _ span => span
  | .cursor _ => none

end HandlerFault

/-- What stays the same during one pass of a handler over a node. -/
structure Context where
  source : SourceText
  /-- The directives of the item that the pass is over. -/
  directives : Directives
  /-- The directives of the unit. -/
  unitDirectives : Directives
  /-- The name under which the handler was selected. -/
  handlerName : String
deriving DecidableEq, Repr

/-- The answer of a handler to one visit. -/
structure Reply (σ : Type) where
  state : σ
  edits : List Edit
  notices : List Notice
  outcome : Except HandlerFault Verdict

/-- A handler with a state of type `σ`. -/
abbrev Handler (σ : Type) := Context → Phase → Cursor → σ → Reply σ

/-- A pass that ended because its handler failed. -/
structure PassFailure where
  handlerName : String
  span : Span
  position : Position
  fault : HandlerFault
deriving DecidableEq, Repr

/-- The written form `handler: line:col: fault`. -/
def PassFailure.message (f : PassFailure) : String :=
  f.handlerName ++ ": " ++ f.position.display ++ ": " ++ f.fault.message

end Graft
