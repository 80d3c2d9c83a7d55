/-!
# Spans

A span is a half-open range of byte offsets into the text of a unit. A node that was made by a
handler has no place in the text: it carries the detached span `0..0`.
-/

namespace Graft

/-- A half-open range `start..stop` of byte offsets. -/
structure Span where
  start : Nat
  stop : Nat
deriving DecidableEq, Repr, Inhabited

namespace Span

def detached : Span := ⟨0, 0⟩

/-- The bounds of a span that was asked for stand in the wrong order. -/
structure Inverted where
  start : Nat
  stop : Nat
deriving DecidableEq, Repr

/-- The span between two offsets, which have to be in order. -/
def between (start stop : Nat) : Except Inverted Span :=
  if start ≤ stop then .ok ⟨start, stop⟩ else .error ⟨start, stop⟩

/-- The complaint about bounds in the wrong order. -/
def Inverted.message (e : Inverted) : String :=
  "Span start (" ++ toString e.start ++ ") must be <= end (" ++ toString e.stop ++ ")"

def length (s : Span) : Nat := s.stop - s.start

def isEmpty (s : Span) : Bool := s.start == s.stop

/-- The written form `start..stop`. -/
def display (s : Span) : String :=
  toString s.start ++ ".." ++ toString s.stop

/-- The span itself, or `fallback` for a span that says nothing about a place. -/
def orElse (s fallback : Span) : Span :=
  if s.isEmpty then fallback else s

@[simp] theorem isEmpty_detached : detached.isEmpty = true := rfl

theorem orElse_of_isEmpty {s : Span} (h : s.isEmpty = true) (fallback : Span) :
    s.orElse fallback = fallback := by
  simp [orElse, h]

end Span

end Graft
