import Graft.Proofs.Sexp.Spans

/-!
# Spans with checked bounds

A span between two offsets can only be made if they are in order. Reading makes a span for every
node that it completes, for a symbol also when the text then ends in the middle of its list, and
reporting a fault makes one for the place of the fault. `Checked.parse` is reading with all these
spans made by `Span.between`, which refuses bounds in the wrong order.

It never refuses, on any text: `Checked.parse_eq`. What is completed has started before, and the
invariant `State.Laid` says so of the current token and of every open list.
-/

namespace Graft.Sexp.Checked

/-- Close the innermost open list with the character at the current offset. -/
def closeList (s : State) : Except Span.Inverted (Except Fault State) :=
  match s.frames with
  | [] => .ok (.error (.unexpected ')'))
  | f :: outer =>
    (Span.between f.start (s.offset + 1)).map fun span =>
      let n : Node := ⟨f.kind, f.head, span, none, f.children.reverse⟩
      let s := { s with frames := outer }
      .ok (if outer.isEmpty then { s.addItem n with mode := .outside 0 }
        else { s.addChild n with mode := .inside })

/-- The symbol that started at `start` is complete. -/
def closeSymbol (s : State) (start : Nat) (text : List Char) : Except Span.Inverted State :=
  (Span.between start s.offset).map fun span =>
    { s.addChild ⟨.ident, String.ofList text.reverse, span, none, []⟩ with mode := .inside }

/-- The string that started at `start` is complete with the character at the current offset. -/
def closeString (s : State) (start : Nat) (text : List Char) : Except Span.Inverted State :=
  (Span.between start (s.offset + 1)).map fun span =>
    { s.addChild ⟨.literal, String.ofList text.reverse, span, none, []⟩ with mode := .inside }

/-- A character between the elements of a list. Only a closing parenthesis completes a node. -/
def stepInside (s : State) (c : Char) : Except Span.Inverted (Except Fault State) :=
  if c = ')' then closeList s else .ok (s.stepInside c)

/-- The effect of a character, before the offset moves on. -/
def read (s : State) (c : Char) : Except Span.Inverted (Except Fault State) :=
  match s.mode with
  | .head start text =>
    if isSymbolChar c then .ok (s.read c) else stepInside (s.closeHead start text) c
  | .inside => stepInside s c
  | .symbol start text =>
    if isSymbolChar c then .ok (s.read c)
    else (closeSymbol s start text).bind fun s => stepInside s c
  | .string start text =>
    if c = '"' then (closeString s start text).map .ok else .ok (s.read c)
  | .outside _ | .comment _ | .opened _ | .escape .. => .ok (s.read c)

/-- Read a text from a state on. A fault comes with the offset at which it arose. -/
def run (s : State) : List Char → Except Span.Inverted (Except (Nat × Fault) State)
  | [] => .ok (.ok s)
  | c :: rest =>
    (read s c).bind fun
    | .error fault => .ok (.error (s.offset, fault))
    | .ok s' => run { s' with offset := s.offset + c.utf8Size } rest

/-- The effect of the end of the text. It completes a symbol, though not the list around it. -/
def finish (s : State) : Except Span.Inverted (Except Fault (Option String × List Node)) :=
  match s.mode with
  | .symbol start text => (closeSymbol s start text).map State.finish
  | _ => .ok s.finish

/-- The report of a fault, at the empty span at its offset. -/
def report (source : SourceText) (offset : Nat) (fault : Fault) :
    Except Span.Inverted (Except Error SourceUnit) :=
  (Span.between offset offset).map fun span =>
    .error (.load source.path (source.position span) fault.message)

/-- The unit in the text of a file. -/
def parse (path : Path) (text : String) : Except Span.Inverted (Except Error SourceUnit) :=
  (run .initial text.toList).bind fun
  | .error (offset, fault) => report ⟨path, text⟩ offset fault
  | .ok s => (finish s).bind fun
    | .error fault => report ⟨path, text⟩ s.offset fault
    | .ok (doc, items) => .ok (.ok (.ofItems ⟨path, text⟩ doc items))

theorem between_of_le {start stop : Nat} (le : start ≤ stop) :
    Span.between start stop = .ok ⟨start, stop⟩ := if_pos le

variable {s : State} {c : Char} {start : Nat}

theorem closeList_eq (nested : Nested s.items s.frames s.offset) :
    closeList s = .ok s.closeList := by
  rw [closeList, State.closeList]
  cases frames : s.frames with
  | nil => rfl
  | cons f outer =>
      rw [frames] at nested
      have before := nested.1
      simp only [between_of_le (Nat.le_succ_of_le (Nat.le_of_lt before))]
      rfl

theorem closeSymbol_eq (started : start < s.offset) (text : List Char) :
    closeSymbol s start text = .ok (s.closeSymbol start text) := by
  rw [closeSymbol, between_of_le (Nat.le_of_lt started)]
  rfl

theorem closeString_eq (started : start < s.offset) (text : List Char) :
    closeString s start text = .ok (s.closeString start text) := by
  rw [closeString, between_of_le (Nat.le_succ_of_le (Nat.le_of_lt started))]
  rfl

theorem stepInside_eq (nested : Nested s.items s.frames s.offset) (c : Char) :
    stepInside s c = .ok (s.stepInside c) := by
  rw [stepInside]
  split
  · next close =>
      rw [closeList_eq nested, close]
      rfl
  · rfl

/-- No character asks for a span with the wrong bounds. -/
theorem read_eq (laid : s.Laid s.offset) (c : Char) : read s c = .ok (s.read c) := by
  rw [read]
  cases mode : s.mode with
  | head start text =>
      obtain ⟨nested, started⟩ := laid.within (congrArg _ mode)
      simp only
      split
      · rfl
      · next other =>
          have inside : Nested (s.closeHead start text).items (s.closeHead start text).frames
              (s.closeHead start text).offset := ⟨started, Node.Row.nil _ _, nested⟩
          simp only [stepInside_eq inside, State.read, mode, other, Bool.false_eq_true, if_false]
  | inside => simp only [stepInside_eq (laid.between (congrArg _ mode)), State.read, mode]
  | symbol start text =>
      obtain ⟨nested, started⟩ := laid.within (congrArg _ mode)
      simp only
      split
      · rfl
      · next other =>
          have inside := State.closeSymbol_nested nested started text
          simp only [closeSymbol_eq started, Except.bind, stepInside_eq inside, State.read, mode,
            other, Bool.false_eq_true, if_false]
  | string start text =>
      obtain ⟨-, started⟩ := laid.within (congrArg _ mode)
      simp only [closeString_eq started, Except.map]
      split
      · next quote => simp only [State.read, mode, quote, if_true]
      · rfl
  | _ => rfl

theorem run_eq (laid : s.Laid s.offset) (text : List Char) : run s text = .ok (s.run text) := by
  induction text generalizing s with
  | nil => rfl
  | cons c text ih =>
      rw [run, read_eq laid, State.run, State.step]
      cases stepped : s.read c with
      | error fault => rfl
      | ok s' => exact ih (laid.step (State.step_eq_ok_iff.mpr ⟨s', stepped, rfl⟩))

theorem finish_eq (laid : s.Laid s.offset) : finish s = .ok s.finish := by
  rw [finish]
  cases mode : s.mode with
  | symbol start text =>
      obtain ⟨-, started⟩ := laid.within (congrArg _ mode)
      simp only [closeSymbol_eq started, Except.map, State.finish, State.closeSymbol, mode]
  | _ => rfl

theorem report_eq (source : SourceText) (offset : Nat) (fault : Fault) :
    report source offset fault =
      .ok (.error (.load source.path (Position.ofOffset source.text offset) fault.message)) := by
  rw [report, between_of_le (Nat.le_refl offset)]
  rfl

/-- **Checked bounds.** No text, accepted or not, asks for a span with the wrong bounds. -/
theorem parse_eq (path : Path) (text : String) :
    parse path text = .ok (frontend.parse path text) := by
  have laid := State.laid_initial
  rw [parse, run_eq laid]
  simp only [frontend, Sexp.parse, Sexp.read]
  cases ran : State.initial.run text.toList with
  | error e =>
      simp only [Except.bind, report_eq]
  | ok s =>
      simp only [Except.bind, finish_eq (laid.run ran)]
      cases finished : s.finish with
      | error fault => simp only [report_eq]
      | ok result => rfl

end Graft.Sexp.Checked
