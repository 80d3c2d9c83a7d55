import Graft.Proofs.Sexp.Recognition
import Graft.Proofs.Text.Positions

/-!
# Where a fault is

A text that is refused is refused at a place. Everything before the place can still become the text
of a unit: `State.Sound.canEnd` completes whatever is being read, with the rest of a token and the
parentheses that are still open. The character at the place, if there is one, cannot be saved by any
text after it, since reading is by one character at a time and has ended there. If the place is the
end of the text, the text is only too short.

Offsets count bytes and are moved on by whole characters, so the place of a fault is never inside a
character. `parse_fault` puts this together.
-/

namespace Graft.Sexp

/-- The number of bytes of a text is the sum over its characters. -/
theorem width_eq (chars : List Char) : width chars = (String.ofList chars).utf8ByteSize := by
  induction chars with
  | nil => rfl
  | cons c chars ih => rw [Position.utf8ByteSize_ofList_cons, ← ih, width_cons]

theorem width_toList (text : String) : width text.toList = text.utf8ByteSize := by
  rw [width_eq, String.ofList_toList]

namespace State

variable {o start : Nat} {s s' : State} {frames : List Frame} {doc : Option String}
variable {items : List Node} {pending : List String} {text : List Char} {fault : Fault}

/-! ### Offsets -/

theorem offset_of_step {c : Char} (stepped : s.step c = .ok s') :
    s'.offset = s.offset + c.utf8Size := by
  obtain ⟨t, -, rfl⟩ := step_eq_ok_iff.mp stepped
  rfl

/-- Reading moves the offset on by the bytes that were read. -/
theorem offset_of_run (ran : s.run text = .ok s') : s'.offset = s.offset + width text := by
  induction text generalizing s with
  | nil =>
      cases ran
      rfl
  | cons c text ih =>
      obtain ⟨t, stepped, ran⟩ := run_cons_eq_ok_iff.mp ran
      rw [ih ran, offset_of_step stepped, width_cons, Nat.add_assoc]

theorem offset_of_run_initial (ran : initial.run text = .ok s) : s.offset = width text := by
  rw [offset_of_run ran]
  exact Nat.zero_add _

/-- A fault is raised by one character, after everything before it was read. -/
theorem run_eq_error (failed : s.run text = .error (o, fault)) :
    ∃ before c after, text = before ++ c :: after ∧
      ∃ t, s.run before = .ok t ∧ t.step c = .error fault ∧ t.offset = o := by
  induction text generalizing s with
  | nil => cases failed
  | cons c text ih =>
      rw [run] at failed
      cases stepped : s.step c with
      | error fault' =>
          simp only [stepped, Except.error.injEq, Prod.mk.injEq] at failed
          obtain ⟨rfl, rfl⟩ := failed
          exact ⟨[], c, text, rfl, s, rfl, stepped, rfl⟩
      | ok s' =>
          simp only [stepped] at failed
          obtain ⟨before, d, after, rfl, t, ran, fails, here⟩ := ih failed
          refine ⟨c :: before, d, after, rfl, t, ?_, fails, here⟩
          rw [run, stepped]
          exact ran

/-! ### Completion -/

/-- Reading from a state on accepts the rest of a text, with some documentation and items of the
given outlines. -/
def Ends (s : State) (text : List Char) (outlines : List Node) : Prop :=
  ∃ s' doc items, s.run text = .ok s' ∧ s'.finish = .ok (doc, items) ∧
    items.map outline = outlines

theorem Ends.of_run {rest : List Char} {outlines : List Node} (ran : s.run text = s'.run rest)
    (ends : s'.Ends rest outlines) : s.Ends text outlines := by
  obtain ⟨last, doc, items, run, finished⟩ := ends
  exact ⟨last, doc, items, ran.trans run, finished⟩

/-- Some text can follow that ends the unit. -/
def CanEnd (s : State) : Prop := ∃ rest outlines, s.Ends rest outlines

theorem CanEnd.of_run (ran : s.run text = .ok s') (canEnd : s'.CanEnd) : s.CanEnd := by
  obtain ⟨rest, outlines, ends⟩ := canEnd
  refine ⟨text ++ rest, outlines, ends.of_run ?_⟩
  rw [run_append, ran]
  rfl

theorem canEnd_outside (newlines : Nat) :
    CanEnd ⟨o, .outside newlines, [], doc, items, pending⟩ :=
  ⟨[], _, _, _, _, rfl, rfl, rfl⟩

/-- Parentheses close all open lists. The induction is on the lists around the innermost one. -/
theorem closes_all (f : Frame) (outer : List Frame) :
    ∃ rest outlines, Ends ⟨o, .inside, f :: outer, doc, items, pending⟩ (')' :: rest)
      outlines := by
  induction outer generalizing o f with
  | nil =>
      obtain ⟨rest, outlines, ends⟩ := canEnd_outside 0
      exact ⟨rest, outlines, ends.of_run (run_closeItem f)⟩
  | cons g outer ih =>
      obtain ⟨rest, outlines, ends⟩ := ih _
      exact ⟨')' :: rest, outlines, ends.of_run (run_closeList f)⟩

theorem canEnd_inside (given : frames ≠ []) :
    CanEnd ⟨o, .inside, frames, doc, items, pending⟩ := by
  obtain ⟨f, outer, rfl⟩ := List.exists_cons_of_ne_nil given
  obtain ⟨rest, outlines, ends⟩ := closes_all f outer
  exact ⟨_, outlines, ends⟩

theorem canEnd_head (chars : List Char) :
    CanEnd ⟨o, .head start chars, frames, doc, items, pending⟩ := by
  obtain ⟨rest, outlines, ends⟩ := closes_all _ frames
  exact ⟨_, outlines, ends.of_run (run_closeHead chars rfl)⟩

theorem canEnd_string (given : frames ≠ []) (chars : List Char) :
    CanEnd ⟨o, .string start chars, frames, doc, items, pending⟩ := by
  obtain ⟨f, outer, rfl⟩ := List.exists_cons_of_ne_nil given
  obtain ⟨rest, outlines, ends⟩ := canEnd_inside (List.cons_ne_nil _ outer)
  exact ⟨_, outlines, ends.of_run (run_closeString chars)⟩

/-- Whatever is being read, some text can follow that ends the unit. -/
theorem Sound.canEnd (sound : s.Sound) : s.CanEnd := by
  obtain ⟨offset, mode, frames, doc, items, pending⟩ := s
  have fits := sound.mode
  cases mode with
  | outside newlines =>
      cases fits
      exact canEnd_outside newlines
  | comment chars =>
      cases fits.1
      exact ⟨[], _, _, _, _, rfl, rfl, rfl⟩
  | opened start =>
      have read : State.run ⟨offset, .opened start, frames, doc, items, pending⟩ ['a'] =
          .ok ⟨offset + 1, .head start ['a'], frames, doc, items, pending⟩ := rfl
      exact (canEnd_head ['a']).of_run read
  | head start chars => exact canEnd_head chars
  | inside => exact canEnd_inside fits
  | symbol start chars =>
      obtain ⟨f, outer, rfl⟩ := List.exists_cons_of_ne_nil fits.1
      obtain ⟨rest, outlines, ends⟩ := closes_all _ outer
      exact ⟨_, outlines, ends.of_run (run_closeSymbol chars rfl)⟩
  | string start chars => exact canEnd_string fits chars
  | escape start chars =>
      have read : State.run ⟨offset, .escape start chars, frames, doc, items, pending⟩ ['a'] =
          .ok ⟨offset + 1, .string start ('a' :: chars), frames, doc, items, pending⟩ := rfl
      exact (canEnd_string fits _).of_run read

end State

/-! ### Texts -/

variable {path : Path} {text before : String}

/-- A text that is read to its end is the text of a unit. -/
theorem parse_of_ends {outlines : List Node} (ends : State.initial.Ends text.toList outlines) :
    ∃ u, frontend.parse path text = .ok u := by
  obtain ⟨s, doc, items, ran, finished, -⟩ := ends
  exact ⟨_, parse_eq_ok_iff.mpr ⟨doc, items, read_eq_ok_iff.mpr ⟨s, ran, finished⟩, rfl⟩⟩

/-- What was read without a fault can become the text of a unit. -/
theorem exists_parse_append {s : State} (ran : State.initial.run before.toList = .ok s) :
    ∃ rest u, frontend.parse path (before ++ rest) = .ok u := by
  obtain ⟨rest, outlines, ends⟩ := (State.sound_initial.run ran).canEnd
  have whole : State.initial.Ends (before ++ String.ofList rest).toList outlines := by
    rw [String.toList_append, String.toList_ofList]
    apply ends.of_run
    rw [State.run_append, ran]
    rfl
  exact ⟨String.ofList rest, parse_of_ends whole⟩

/-- No text is accepted that starts with a text that raises a fault. -/
theorem parse_append_ne_ok {e : Nat × Fault} (failed : State.initial.run before.toList = .error e)
    (rest : String) (u : SourceUnit) : frontend.parse path (before ++ rest) ≠ .ok u := by
  have whole : State.initial.run (before ++ rest).toList = .error e := by
    rw [String.toList_append, State.run_append, failed]
    rfl
  simp only [frontend, parse, read, whole, ne_eq, reduceCtorEq, not_false_eq_true]

/-- The place of a fault cuts the text in two: what comes before it was read, and if a character
comes after it, reading up to this character has failed. -/
theorem read_eq_error {offset : Nat} {fault : Fault}
    (refused : read text.toList = .error (offset, fault)) :
    ∃ before after : String, text = before ++ after ∧ before.utf8ByteSize = offset ∧
      (∃ s, State.initial.run before.toList = .ok s) ∧
      ∀ c tail, after = String.singleton c ++ tail →
        ∃ e, State.initial.run (before ++ String.singleton c).toList = .error e := by
  rw [read] at refused
  cases ran : State.initial.run text.toList with
  | error e =>
      simp only [ran, Except.error.injEq] at refused
      subst refused
      obtain ⟨front, c, rest, split, t, reached, fails, here⟩ := State.run_eq_error ran
      refine ⟨String.ofList front, String.ofList (c :: rest), ?_, ?_, ⟨t, by simpa⟩, ?_⟩
      · rw [← String.ofList_append, ← split, String.ofList_toList]
      · rw [← width_eq, ← State.offset_of_run_initial reached, here]
      · intro d tail same
        rw [String.ofList_cons] at same
        obtain ⟨rfl, -⟩ := String.singleton_append_inj.mp same
        refine ⟨(t.offset, fault), ?_⟩
        rw [String.toList_append, String.toList_ofList, String.toList_singleton,
          State.run_append, reached]
        simp [Except.bind, State.run, fails]
  | ok s =>
      simp only [ran] at refused
      cases finished : s.finish with
      | ok result => simp [finished] at refused
      | error fault' =>
          simp only [finished, Except.error.injEq, Prod.mk.injEq] at refused
          refine ⟨text, "", by simp, ?_, ⟨s, ran⟩, ?_⟩
          · rw [← width_toList, ← refused.1, State.offset_of_run_initial ran]
          · intro c tail same
            have longer := congrArg String.toList same
            simp at longer

/-- **The place of a fault.** A text that is refused is refused at an offset between two characters,
or at its end, and the error has the line and the column of this offset. The text before it is the
start of the text of a unit. With the next character, if there is one, it is not. -/
theorem parse_fault {error : Error} (refused : frontend.parse path text = .error error) :
    ∃ (before after : String) (fault : Fault),
      text = before ++ after ∧
      parse path text = .error (before.utf8ByteSize, fault) ∧
      error = .load path (Position.ofOffset text before.utf8ByteSize) fault.message ∧
      (∃ rest u, frontend.parse path (before ++ rest) = .ok u) ∧
      ∀ c tail, after = String.singleton c ++ tail →
        ∀ rest u, frontend.parse path (before ++ String.singleton c ++ rest) ≠ .ok u := by
  cases place : read text.toList with
  | ok result =>
      simp [frontend, parse, place] at refused
  | error e =>
      obtain ⟨offset, fault⟩ := e
      obtain ⟨before, after, split, bytes, ⟨s, ran⟩, stuck⟩ := read_eq_error place
      refine ⟨before, after, fault, split, ?_, ?_, exists_parse_append ran, ?_⟩
      · simp only [parse, place, bytes]
      · simp only [frontend, parse, place, Except.error.injEq] at refused
        rw [← refused, bytes]
      · intro c tail next rest u
        obtain ⟨e, failed⟩ := stuck c tail next
        exact parse_append_ne_ok failed rest u

/-- The comment in this list is a fault, behind a character of two bytes. -/
theorem parse_fault_listComment :
    ∃ before after : String,
      "(fn é ;)" = before ++ after ∧ before.utf8ByteSize = 7 ∧
      frontend.parse ⟨"a.rmc"⟩ "(fn é ;)" = .error (.load ⟨"a.rmc"⟩ ⟨1, 7⟩ "unexpected ';'") ∧
      (∃ rest u, frontend.parse ⟨"a.rmc"⟩ (before ++ rest) = .ok u) ∧
      ∀ c tail, after = String.singleton c ++ tail →
        ∀ rest u, frontend.parse ⟨"a.rmc"⟩ (before ++ String.singleton c ++ rest) ≠ .ok u := by
  have place : parse ⟨"a.rmc"⟩ "(fn é ;)" = .error (7, .unexpected ';') := by
    have refused : read "(fn é ;)".toList = .error (7, .unexpected ';') := by decide
    simp only [parse, refused]
  have position : Position.ofOffset "(fn é ;)" 7 = ⟨1, 7⟩ := by decide
  have refused : frontend.parse ⟨"a.rmc"⟩ "(fn é ;)" =
      .error (.load ⟨"a.rmc"⟩ ⟨1, 7⟩ "unexpected ';'") := by
    simp only [frontend, place, position]
    rfl
  obtain ⟨before, after, fault, split, place', -, starts, stuck⟩ := parse_fault refused
  rw [place] at place'
  simp only [Except.error.injEq, Prod.mk.injEq] at place'
  exact ⟨before, after, split, place'.1.symm, refused, starts, stuck⟩

end Graft.Sexp
