import Graft.Proofs.Sexp.FaultPlace
import Graft.Proofs.Sexp.RoundTrip
import Graft.Proofs.Sexp.Segments
import Graft.Proofs.Sexp.Unplaced

/-!
# Line endings

The lines of a text can end with line feeds, or with carriage returns and line feeds. To reading
this makes no difference, as long as no line ends within a string. A carriage return is layout
between tokens, ends a symbol as a line feed does, and is taken off the end of a comment. It is no
line feed, so it does not separate comments. And a column counts from the last line feed, so the
places of faults stay the same, though their offsets do not.

The two texts are read side by side. Behind each character of the one and what it has become in the
other, the states differ in places only: `parallel_of_bare_eq`.
-/

namespace Graft.Sexp

/-- Characters with a carriage return put before every line feed. -/
def returned (text : List Char) : List Char :=
  text.flatMap fun c => if c = '\n' then ['\r', '\n'] else [c]

/-- A text with a carriage return before every line feed. -/
def withReturns (text : String) : String := String.ofList (returned text.toList)

theorem returned_cons (c : Char) (text : List Char) :
    returned (c :: text) = returned [c] ++ returned text := by
  simp [returned]

theorem returned_append (a b : List Char) : returned (a ++ b) = returned a ++ returned b :=
  List.flatMap_append

theorem returned_singleton {c : Char} (other : c ≠ '\n') : returned [c] = [c] := by
  simp [returned, other]

/-! ### Where strings are -/

/-- What the next character of a text is in. -/
inductive Zone where
  | code
  | comment
  | string
  /-- In a string, after a backslash. -/
  | escape
deriving DecidableEq

namespace Zone

/-- What the character after `c` is in. -/
def next (zone : Zone) (c : Char) : Zone :=
  match zone with
  | .code => if c = ';' then .comment else if c = '"' then .string else .code
  | .comment => if c = '\n' then .code else .comment
  | .string => if c = '"' then .code else if c = '\\' then .escape else .string
  | .escape => .string

/-- What the character behind a text is in. -/
def after (text : List Char) : Zone := text.foldl next .code

def isString : Zone → Bool
  | .string | .escape => true
  | .code | .comment => false

end Zone

/-- No line that is read ends within a string, whether or not the string is ever closed. What comes
after a fault is not read. -/
def Unfolded (text : List Char) : Prop :=
  ∀ before after, text = before ++ '\n' :: after →
    (∃ s, State.initial.run before = .ok s) → (Zone.after before).isString = false

/-- It is enough to look at the characters before each line feed. -/
theorem unfolded_of_take {text : List Char}
    (code : ∀ i < text.length, text[i]? = some '\n' →
      (Zone.after (text.take i)).isString = false) : Unfolded text := by
  rintro before after rfl -
  have here := code before.length (by simp) (by simp)
  rwa [List.take_left] at here

/-- The token that a character belongs to says what it is in. -/
def Mode.zone : Mode → Zone
  | .outside _ | .opened _ | .head .. | .inside | .symbol .. => .code
  | .comment _ => .comment
  | .string .. => .string
  | .escape .. => .escape

theorem next_of_isLayout {c : Char} (layout : Text.isLayout c = true) : Zone.code.next c = .code := by
  rcases Text.isLayout_iff.mp layout with rfl | rfl | rfl | rfl <;> rfl

theorem next_of_isSymbolChar {c : Char} (symbol : isSymbolChar c = true) :
    Zone.code.next c = .code := by
  have noSemicolon : c ≠ ';' := by
    rintro rfl
    exact absurd symbol (by decide)
  have noQuote : c ≠ '"' := by
    rintro rfl
    exact absurd symbol (by decide)
  rw [Zone.next, if_neg noSemicolon, if_neg noQuote]

@[simp] theorem zone_bare (mode : Mode) : mode.bare.zone = mode.zone := by
  cases mode <;> rfl

namespace State

variable {s t s' t' : State} {c : Char} {text : List Char}

theorem ReadsInside.zone (reads : s.ReadsInside c s') : s'.mode.zone = Zone.code.next c := by
  cases reads with
  | layout layout => exact (next_of_isLayout layout).symm
  | close closes => cases closes <;> rfl
  | paren opens => cases opens; rfl
  | quote => rfl
  | symbol symbol => exact (next_of_isSymbolChar symbol).symm

theorem ReadsOutside.zone {newlines : Nat} (reads : s.ReadsOutside newlines c s') :
    s'.mode.zone = Zone.code.next c := by
  cases reads with
  | layout layout => exact (next_of_isLayout layout).symm
  | emptyLine layout => exact (next_of_isLayout layout).symm
  | semicolon => rfl
  | paren opens => cases opens; rfl

/-- Reading is in a string or a comment where the text is. -/
theorem Reads.zone (reads : s.Reads c s') : s'.mode.zone = s.mode.zone.next c := by
  cases reads with
  | outside mode reads =>
      rw [mode]
      exact reads.zone
  | endComment mode =>
      rw [mode]
      rfl
  | comment mode other =>
      rw [mode]
      exact (if_neg other).symm
  | opened mode layout =>
      rw [mode]
      exact (next_of_isLayout layout).symm
  | startHead mode symbol =>
      rw [mode]
      exact (next_of_isSymbolChar symbol).symm
  | head mode symbol =>
      rw [mode]
      exact (next_of_isSymbolChar symbol).symm
  | endHead mode other reads =>
      rw [mode]
      exact reads.zone
  | inside mode reads =>
      rw [mode]
      exact reads.zone
  | symbol mode symbol =>
      rw [mode]
      exact (next_of_isSymbolChar symbol).symm
  | endSymbol mode other reads =>
      rw [mode]
      exact reads.zone
  | endString mode =>
      rw [mode]
      rfl
  | backslash mode =>
      rw [mode]
      rfl
  | string mode noQuote noBackslash =>
      rw [mode]
      exact ((if_neg noQuote).trans (if_neg noBackslash)).symm
  | escape mode =>
      rw [mode]
      rfl

theorem zone_of_step (stepped : s.step c = .ok s') : s'.mode.zone = s.mode.zone.next c := by
  obtain ⟨t, reads, rfl⟩ := reads_of_step stepped
  exact reads.zone

/-- What has been read of a text says what its next character is in. -/
theorem zone_of_run (ran : initial.run text = .ok s) : s.mode.zone = Zone.after text := by
  apply run_invariant (fun before s => s.mode.zone = Zone.after before) ?_ [] rfl ran
  intro before s c s' here stepped
  rw [zone_of_step stepped, here, Zone.after, Zone.after, List.foldl_append]
  rfl

/-! ### The end of a line -/

theorem commentText_return (line : List Char) : commentText (line ++ ['\r']) = commentText line := by
  simp [commentText, dropReturns]

theorem keepComment_return (s : State) (text : List Char) :
    s.keepComment ('\r' :: text) = s.keepComment text := by
  rw [keepComment, keepComment, List.reverse_cons, commentText_return]

/-- Outside strings a line can always end, and a carriage return before its end changes nothing. -/
theorem run_returnFeed (line : s.mode.zone.isString = false) :
    ∃ s', s.step '\n' = .ok s' ∧ s.run ['\r', '\n'] = .ok { s' with offset := s.offset + 2 } := by
  obtain ⟨offset, mode, frames, doc, items, pending⟩ := s
  cases mode with
  | outside newlines =>
      match newlines with
      | 0 | 1 => exact ⟨_, rfl, rfl⟩
      | newlines + 2 =>
          -- The comments that wait are separated by the return already, and none are left then.
          let s : State := ⟨offset, .outside (newlines + 2), frames, doc, items, pending⟩
          have once : s.detach.detach = s.detach := detach_of_pending rfl
          refine ⟨{ s.detach with offset := offset + 1, mode := .outside (newlines + 3) }, rfl, ?_⟩
          exact congrArg (fun t : State =>
            Except.ok { t with offset := offset + 2, mode := .outside (newlines + 3) }) once
  | comment text =>
      let s : State := ⟨offset, .comment text, frames, doc, items, pending⟩
      refine ⟨{ s.keepComment text with offset := offset + 1, mode := .outside 1 }, rfl, ?_⟩
      exact congrArg (fun t : State =>
        Except.ok { t with offset := offset + 2, mode := .outside 1 }) (s.keepComment_return text)
  | opened start => exact ⟨_, rfl, rfl⟩
  | head start text => exact ⟨_, rfl, rfl⟩
  | inside => exact ⟨_, rfl, rfl⟩
  | symbol start text => exact ⟨_, rfl, rfl⟩
  | string start text => cases line
  | escape start text => cases line

/-! ### Side by side -/

theorem offset_initial : initial.offset = 0 := rfl

/-- Behind a character and what it has become, states that differed in places only still do. -/
theorem run_returned_singleton (same : s.bare = t.bare)
    (line : c = '\n' → s.mode.zone.isString = false) (stepped : s.step c = .ok s') :
    ∃ t', t.run (returned [c]) = .ok t' ∧ s'.bare = t'.bare := by
  obtain ⟨t', stepped', same'⟩ := step_ok_congr same stepped
  by_cases feed : c = '\n'
  · subst feed
    have modes : s.mode.bare = t.mode.bare := congrArg mode same
    have line' : t.mode.zone.isString = false := by
      rw [← zone_bare, ← modes, zone_bare]
      exact line rfl
    obtain ⟨t'', fed, ran⟩ := run_returnFeed line'
    rw [stepped'] at fed
    cases fed
    exact ⟨_, ran, same'⟩
  · refine ⟨t', ?_, same'⟩
    rw [returned_singleton feed, run, stepped']
    rfl

/-- Reading a text from `s`, and the text with its returns from `t`, ends in the same way: both are
read to the end, to states that differ in places only, or both fail behind the same characters. -/
inductive Parallel (s t : State) (text : List Char) : Prop
  | reads {s' t' : State} (ran : s.run text = .ok s') (ran' : t.run (returned text) = .ok t')
      (same : s'.bare = t'.bare)
  | fails (before after : List Char) (fault : Fault) (split : text = before ++ after)
      (failed : s.run text = .error (s.offset + width before, fault))
      (failed' : t.run (returned text) = .error (t.offset + width (returned before), fault))

/-- One more character at the start of the text. -/
theorem Parallel.cons (parallel : Parallel s' t' text) (stepped : s.step c = .ok s')
    (ran : t.run (returned [c]) = .ok t') : Parallel s t (c :: text) := by
  have first : s.run (c :: text) = s'.run text := by rw [run, stepped]
  have second : t.run (returned (c :: text)) = t'.run (returned text) := by
    rw [returned_cons, run_append, ran]
    rfl
  cases parallel with
  | reads ends ends' same => exact .reads (first.trans ends) (second.trans ends') same
  | fails before after fault split failed failed' =>
      refine .fails (c :: before) after fault (congrArg (c :: ·) split) ?_ ?_
      · rw [first, failed, offset_of_step stepped, width_cons, Nat.add_assoc]
      · rw [second, failed', offset_of_run ran, returned_cons c before, width_append,
          Nat.add_assoc]

/-- **Two readings.** The induction is on the text. Where the first reading meets a line feed it is
not in a string, so the second reading can take the return and the line feed. -/
theorem parallel_of_bare_eq (same : s.bare = t.bare)
    (lines : ∀ before after s', text = before ++ '\n' :: after → s.run before = .ok s' →
      s'.mode.zone.isString = false) : Parallel s t text := by
  induction text generalizing s t with
  | nil => exact .reads rfl rfl same
  | cons c text ih =>
      have line : c = '\n' → s.mode.zone.isString = false := by
        rintro rfl
        exact lines [] text s rfl rfl
      cases stepped : s.step c with
      | error fault =>
          have other : c ≠ '\n' := by
            rintro rfl
            obtain ⟨s', fed, -⟩ := run_returnFeed (line rfl)
            rw [fed] at stepped
            cases stepped
          refine .fails [] (c :: text) fault rfl ?_ ?_
          · rw [run, stepped]
            rfl
          · rw [returned_cons, returned_singleton other, List.cons_append, run,
              step_error_congr same stepped]
            rfl
      | ok s' =>
          obtain ⟨t', ran, same'⟩ := run_returned_singleton same line stepped
          refine (ih same' ?_).cons stepped ran
          intro before after s'' split ran
          apply lines (c :: before) after s'' (congrArg (c :: ·) split)
          rw [run, stepped]
          exact ran

end State

/-! ### Texts -/

/-- Behind what a text has become a position is the same as behind the text. -/
theorem foldl_returned (text : List Char) (p : Position) :
    (returned text).foldl Position.advance p = text.foldl Position.advance p := by
  induction text generalizing p with
  | nil => rfl
  | cons c text ih =>
      rw [returned_cons, List.foldl_append, ih, List.foldl_cons]
      by_cases feed : c = '\n'
      · subst feed
        rfl
      · rw [returned_singleton feed]
        rfl

/-- The position behind characters at the start of a text. -/
theorem ofOffset_width (before after : List Char) :
    Position.ofOffset (String.ofList (before ++ after)) (width before) =
      before.foldl Position.advance .start := by
  have walked := Position.ofOffset_append (String.ofList before) (String.ofList after)
  rwa [← String.ofList_append, ← width_eq, String.toList_ofList] at walked

/-- Reading a text and reading it with returns have the same result. -/
theorem read_returned {text : List Char} (unfolded : Unfolded text) :
    (∃ doc items items', read text = .ok (doc, items) ∧ read (returned text) = .ok (doc, items') ∧
      items'.map Node.bare = items.map Node.bare) ∨
    ∃ before after fault, text = before ++ after ∧ read text = .error (width before, fault) ∧
      read (returned text) = .error (width (returned before), fault) := by
  have lines : ∀ before after s, text = before ++ '\n' :: after →
      State.initial.run before = .ok s → s.mode.zone.isString = false := by
    intro before after s split ran
    rw [State.zone_of_run ran]
    exact unfolded before after split ⟨s, ran⟩
  cases State.parallel_of_bare_eq rfl lines with
  | @reads s t ran ran' same =>
      cases finished : s.finish with
      | error fault =>
          have finished' := State.finish_error_congr same finished
          refine Or.inr ⟨text, [], fault, (List.append_nil _).symm, ?_, ?_⟩
          · simp only [read, ran, finished, State.offset_of_run_initial ran]
          · simp only [read, ran', finished', State.offset_of_run_initial ran']
      | ok unit =>
          obtain ⟨items', finished', kept⟩ := State.finish_ok_congr same finished
          exact Or.inl ⟨unit.1, unit.2, items', read_eq_ok_iff.mpr ⟨s, ran, finished⟩,
            read_eq_ok_iff.mpr ⟨t, ran', finished'⟩, kept.symm⟩
  | fails before after fault split failed failed' =>
      refine Or.inr ⟨before, after, fault, split, ?_, ?_⟩
      · simp only [read, failed, State.offset_initial, Nat.zero_add]
      · simp only [read, failed', State.offset_initial, Nat.zero_add]

variable {text : String}

/-- **Line endings.** A text in which no line ends within a string is accepted exactly when it is
with a carriage return before every line feed. Both then give the same unit, spans aside, which
prints to the same text. If the two texts are refused, it is with the same message at the same line
and column. -/
theorem parse_withReturns (path : Path) (unfolded : Unfolded text.toList) :
    (∃ u v, frontend.parse path text = .ok u ∧ frontend.parse path (withReturns text) = .ok v ∧
      Alike v u ∧ frontend.print v = frontend.print u) ∨
    ∃ position message,
      frontend.parse path text = .error (.load path position message) ∧
      frontend.parse path (withReturns text) = .error (.load path position message) := by
  have chars : (withReturns text).toList = returned text.toList := String.toList_ofList
  rcases read_returned unfolded with ⟨doc, items, items', accepted, accepted', same⟩ |
    ⟨before, after, fault, split, refused, refused'⟩
  · rw [← chars] at accepted'
    have alike : Alike (.ofItems ⟨path, withReturns text⟩ doc items')
      (.ofItems ⟨path, text⟩ doc items) := ⟨rfl, same⟩
    exact Or.inl ⟨_, _, parse_eq_ok_iff.mpr ⟨doc, items, accepted, rfl⟩,
      parse_eq_ok_iff.mpr ⟨doc, items', accepted', rfl⟩, alike, alike.print⟩
  · have position : Position.ofOffset text (width before) =
        before.foldl Position.advance .start := by
      rw [← ofOffset_width before after, ← split, String.ofList_toList]
    have position' : Position.ofOffset (withReturns text) (width (returned before)) =
        before.foldl Position.advance .start := by
      rw [withReturns, split, returned_append, ofOffset_width, foldl_returned]
    refine Or.inr ⟨before.foldl Position.advance .start, fault.message, ?_, ?_⟩
    · simp only [frontend, parse, refused, position]
    · simp only [frontend, parse, chars, refused', position']

/-- Comments, one of them with a quotation mark, an empty line and a list of two lines. -/
theorem parse_withReturns_documented :
    Unfolded ";; unit\n\n;; \"doc\n(fn X\n \"a\")\n".toList ∧
      ∃ u v, frontend.parse ⟨"a.rmc"⟩ ";; unit\n\n;; \"doc\n(fn X\n \"a\")\n" = .ok u ∧
        frontend.parse ⟨"a.rmc"⟩ ";; unit\r\n\r\n;; \"doc\r\n(fn X\r\n \"a\")\r\n" = .ok v ∧
          Alike v u ∧ frontend.print v = frontend.print u := by
  have unfolded : Unfolded ";; unit\n\n;; \"doc\n(fn X\n \"a\")\n".toList :=
    unfolded_of_take (by decide)
  obtain ⟨u, accepted⟩ : ∃ u, frontend.parse ⟨"a.rmc"⟩
      ";; unit\n\n;; \"doc\n(fn X\n \"a\")\n" = .ok u := ⟨_, rfl⟩
  have returns : withReturns ";; unit\n\n;; \"doc\n(fn X\n \"a\")\n" =
      ";; unit\r\n\r\n;; \"doc\r\n(fn X\r\n \"a\")\r\n" := by decide
  rw [← returns]
  refine ⟨unfolded, ?_⟩
  rcases parse_withReturns ⟨"a.rmc"⟩ unfolded with both | ⟨position, message, refused, -⟩
  · exact both
  · rw [accepted] at refused
    cases refused

end Graft.Sexp
