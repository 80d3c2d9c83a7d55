import Graft.Sexp.Reader

/-!
# What a character can do

A character is read in one of a few ways, and what it does depends on the current token alone.
`State.Reads` has one case for each of them, with its guards and the state after it. Between the
elements of a list the cases are those of `State.ReadsInside`, also for the character that ends a
symbol or the head of a list. `State.Finishes` has the tokens in which a text can end.

An invariant of reading is an invariant of every case, and `run_invariant` is the induction over a
text.
-/

namespace Graft.Sexp.State

/-- The innermost open list as a node, ended by the character at the current offset. -/
def nodeOf (s : State) (f : Frame) : Node :=
  ⟨f.kind, f.head, ⟨f.start, s.offset + 1⟩, none, f.children.reverse⟩

/-- A list can open if there is room for it. -/
inductive OpensList (s : State) : State → Prop
  | intro (room : s.frames.length ≤ maxOpen) : OpensList s { s with mode := .opened s.offset }

/-- A list that ends becomes an item, or an element of the list around it. -/
inductive ClosesList (s : State) : State → Prop
  | item {f : Frame} (frames : s.frames = [f]) :
      ClosesList s { { s with frames := [] }.addItem (s.nodeOf f) with mode := .outside 0 }
  | element {f g : Frame} {outer : List Frame} (frames : s.frames = f :: g :: outer) :
      ClosesList s { { s with frames := g :: outer }.addChild (s.nodeOf f) with mode := .inside }

/-- What a character can do outside every list. -/
inductive ReadsOutside (s : State) (newlines : Nat) : Char → State → Prop
  | layout {c : Char} (layout : Text.isLayout c = true)
      (narrow : (if c = '\n' then newlines + 1 else newlines) < 2) :
      ReadsOutside s newlines c
        { s with mode := .outside (if c = '\n' then newlines + 1 else newlines) }
  | emptyLine {c : Char} (layout : Text.isLayout c = true)
      (wide : 2 ≤ if c = '\n' then newlines + 1 else newlines) :
      ReadsOutside s newlines c
        { s.detach with mode := .outside (if c = '\n' then newlines + 1 else newlines) }
  | semicolon : ReadsOutside s newlines ';' { s with mode := .comment [] }
  | paren {s' : State} (opens : s.OpensList s') : ReadsOutside s newlines '(' s'

/-- What a character can do between the elements of a list. -/
inductive ReadsInside (s : State) : Char → State → Prop
  | layout {c : Char} (layout : Text.isLayout c = true) :
      ReadsInside s c { s with mode := .inside }
  | close {s' : State} (closes : s.ClosesList s') : ReadsInside s ')' s'
  | paren {s' : State} (opens : s.OpensList s') : ReadsInside s '(' s'
  | quote : ReadsInside s '"' { s with mode := .string s.offset [] }
  | symbol {c : Char} (symbol : isSymbolChar c = true) :
      ReadsInside s c { s with mode := .symbol s.offset [c] }

/-- What a character can do. -/
inductive Reads (s : State) : Char → State → Prop
  | outside {c : Char} {newlines : Nat} {s' : State} (mode : s.mode = .outside newlines)
      (reads : s.ReadsOutside newlines c s') : Reads s c s'
  | endComment {text : List Char} (mode : s.mode = .comment text) :
      Reads s '\n' { s.keepComment text with mode := .outside 1 }
  | comment {c : Char} {text : List Char} (mode : s.mode = .comment text) (other : c ≠ '\n') :
      Reads s c { s with mode := .comment (c :: text) }
  | opened {c : Char} {start : Nat} (mode : s.mode = .opened start)
      (layout : Text.isLayout c = true) : Reads s c s
  | startHead {c : Char} {start : Nat} (mode : s.mode = .opened start)
      (symbol : isSymbolChar c = true) : Reads s c { s with mode := .head start [c] }
  | head {c : Char} {start : Nat} {text : List Char} (mode : s.mode = .head start text)
      (symbol : isSymbolChar c = true) : Reads s c { s with mode := .head start (c :: text) }
  | endHead {c : Char} {start : Nat} {text : List Char} {s' : State}
      (mode : s.mode = .head start text) (other : isSymbolChar c = false)
      (reads : (s.closeHead start text).ReadsInside c s') : Reads s c s'
  | inside {c : Char} {s' : State} (mode : s.mode = .inside) (reads : s.ReadsInside c s') :
      Reads s c s'
  | symbol {c : Char} {start : Nat} {text : List Char} (mode : s.mode = .symbol start text)
      (symbol : isSymbolChar c = true) : Reads s c { s with mode := .symbol start (c :: text) }
  | endSymbol {c : Char} {start : Nat} {text : List Char} {s' : State}
      (mode : s.mode = .symbol start text) (other : isSymbolChar c = false)
      (reads : (s.closeSymbol start text).ReadsInside c s') : Reads s c s'
  | endString {start : Nat} {text : List Char} (mode : s.mode = .string start text) :
      Reads s '"' (s.closeString start text)
  | backslash {start : Nat} {text : List Char} (mode : s.mode = .string start text) :
      Reads s '\\' { s with mode := .escape start text }
  | string {c : Char} {start : Nat} {text : List Char} (mode : s.mode = .string start text)
      (noQuote : c ≠ '"') (noBackslash : c ≠ '\\') :
      Reads s c { s with mode := .string start (c :: text) }
  | escape {c : Char} {start : Nat} {text : List Char} (mode : s.mode = .escape start text) :
      Reads s c { s with mode := .string start (unescape c :: text) }

/-- A text can end outside every list, and in a comment. -/
inductive Finishes (s : State) : Option String × List Node → Prop
  | outside {newlines : Nat} (mode : s.mode = .outside newlines) :
      Finishes s (s.detach.doc, s.items.reverse)
  | comment {text : List Char} (mode : s.mode = .comment text) :
      Finishes s ((s.keepComment text).detach.doc, s.items.reverse)

variable {s s' : State} {c : Char}

theorem opensList_of_eq_ok (opened : s.openList = .ok s') : s.OpensList s' := by
  rw [openList] at opened
  split at opened
  · cases opened
  · next room =>
      cases opened
      exact ⟨Nat.le_of_not_gt room⟩

theorem closesList_of_eq_ok (closed : s.closeList = .ok s') : s.ClosesList s' := by
  rw [closeList] at closed
  cases frames : s.frames with
  | nil => simp [frames] at closed
  | cons f outer =>
      cases outer with
      | nil =>
          simp only [frames, List.isEmpty_nil, if_true, Except.ok.injEq] at closed
          exact closed ▸ .item frames
      | cons g outer =>
          simp only [frames, List.isEmpty_cons, Bool.false_eq_true, if_false,
            Except.ok.injEq] at closed
          exact closed ▸ .element frames

theorem readsOutside_of_eq_ok {newlines : Nat} (stepped : s.stepOutside newlines c = .ok s') :
    s.ReadsOutside newlines c s' := by
  rw [stepOutside] at stepped
  split at stepped
  · next layout =>
      cases stepped
      by_cases wide : 2 ≤ if c = '\n' then newlines + 1 else newlines
      · rw [if_pos wide]
        exact .emptyLine layout wide
      · rw [if_neg wide]
        exact .layout layout (Nat.lt_of_not_le wide)
  · split at stepped
    · next semicolon =>
        cases stepped
        exact semicolon ▸ .semicolon
    · split at stepped
      · next paren => exact paren ▸ .paren (opensList_of_eq_ok stepped)
      · cases stepped

theorem readsInside_of_eq_ok (stepped : s.stepInside c = .ok s') : s.ReadsInside c s' := by
  rw [stepInside] at stepped
  split at stepped
  · next layout =>
      cases stepped
      exact .layout layout
  · split at stepped
    · next paren => exact paren ▸ .close (closesList_of_eq_ok stepped)
    · split at stepped
      · next paren => exact paren ▸ .paren (opensList_of_eq_ok stepped)
      · split at stepped
        · next quote =>
            cases stepped
            exact quote ▸ .quote
        · split at stepped
          · next symbol =>
              cases stepped
              exact .symbol symbol
          · cases stepped

/-- **Cases.** A character that is read does one of the things in the list. -/
theorem reads_of_eq_ok (stepped : s.read c = .ok s') : s.Reads c s' := by
  rw [read] at stepped
  cases mode : s.mode with
  | outside newlines =>
      simp only [mode] at stepped
      exact .outside mode (readsOutside_of_eq_ok stepped)
  | comment text =>
      simp only [mode] at stepped
      split at stepped
      · next feed =>
          cases stepped
          exact feed ▸ .endComment mode
      · next other =>
          cases stepped
          exact .comment mode other
  | opened start =>
      simp only [mode] at stepped
      split at stepped
      · next layout =>
          cases stepped
          exact .opened mode layout
      · split at stepped
        · next symbol =>
            cases stepped
            exact .startHead mode symbol
        · cases stepped
  | head start text =>
      simp only [mode] at stepped
      split at stepped
      · next symbol =>
          cases stepped
          exact .head mode symbol
      · next other =>
          exact .endHead mode (Bool.eq_false_iff.mpr other) (readsInside_of_eq_ok stepped)
  | inside =>
      simp only [mode] at stepped
      exact .inside mode (readsInside_of_eq_ok stepped)
  | symbol start text =>
      simp only [mode] at stepped
      split at stepped
      · next symbol =>
          cases stepped
          exact .symbol mode symbol
      · next other =>
          exact .endSymbol mode (Bool.eq_false_iff.mpr other) (readsInside_of_eq_ok stepped)
  | string start text =>
      simp only [mode] at stepped
      split at stepped
      · next quote =>
          cases stepped
          exact quote ▸ .endString mode
      · next noQuote =>
          split at stepped
          · next backslash =>
              cases stepped
              exact backslash ▸ .backslash mode
          · next noBackslash =>
              cases stepped
              exact .string mode noQuote noBackslash
  | escape start text =>
      simp only [mode] at stepped
      cases stepped
      exact .escape mode

theorem finishes_of_eq_ok {result : Option String × List Node}
    (finished : s.finish = .ok result) : s.Finishes result := by
  rw [finish] at finished
  cases mode : s.mode with
  | outside newlines =>
      simp only [mode] at finished
      cases finished
      exact .outside mode
  | comment text =>
      simp only [mode] at finished
      cases finished
      exact .comment mode
  | _ => simp [mode] at finished

/-! ### Steps and runs -/

/-- A character has its effect, and then the offset moves on. -/
theorem step_eq_ok_iff :
    s.step c = .ok s' ↔
      ∃ t, s.read c = .ok t ∧ { t with offset := s.offset + c.utf8Size } = s' := by
  rw [step]
  cases s.read c <;> simp

theorem reads_of_step (stepped : s.step c = .ok s') :
    ∃ t, s.Reads c t ∧ { t with offset := s.offset + c.utf8Size } = s' := by
  obtain ⟨t, read, moved⟩ := step_eq_ok_iff.mp stepped
  exact ⟨t, reads_of_eq_ok read, moved⟩

theorem run_cons_eq_ok_iff {text : List Char} :
    s.run (c :: text) = .ok s' ↔ ∃ t, s.step c = .ok t ∧ t.run text = .ok s' := by
  rw [run]
  cases s.step c <;> simp

/-- What every character keeps, every text keeps. The property may speak of the characters that
have been read. -/
theorem run_invariant (holds : List Char → State → Prop)
    (kept : ∀ before s c s', holds before s → s.step c = .ok s' → holds (before ++ [c]) s')
    (before : List Char) (start : holds before s) {text : List Char}
    (ran : s.run text = .ok s') : holds (before ++ text) s' := by
  induction text generalizing before s with
  | nil =>
      cases ran
      rwa [List.append_nil]
  | cons c text ih =>
      obtain ⟨t, stepped, ran⟩ := run_cons_eq_ok_iff.mp ran
      have later := ih (before ++ [c]) (kept before s c t start stepped) ran
      rwa [List.append_assoc] at later

end Graft.Sexp.State
