import Graft.Proofs.Sexp.FaultPlace
import Graft.Proofs.Tree.Placed

/-!
# Where the nodes of a text stand

While a text is read, the open lists stand inside one another. Each has its elements between its
own start and the start of what is open in it, and the finished items are before all of them, one
after the other. `Nested` says this of the open lists and `State.Laid` of a state, whose token, if
it is in one, started after all that. Every character keeps it (`Laid.reads`), so the items of a
text are a row of trees with places in the text (`row_of_parse`).
-/

namespace Graft.Sexp

open Node (Placed Row)

/-- Where the token that is being read started. -/
def Mode.start? : Mode → Option Nat
  | .opened start | .head start _ | .symbol start _ | .string start _ | .escape start _ =>
    some start
  | .outside _ | .comment _ | .inside => none

/-- The open lists, the innermost first: the elements of each are a row behind its start, and
everything that is outside it is before its start. All of it is before the offset `limit`. -/
def Nested (items : List Node) : (frames : List Frame) → (limit : Nat) → Prop
  | [], limit => Row 0 items.reverse limit
  | f :: outer, limit =>
    f.start < limit ∧ Row (f.start + 1) f.children.reverse limit ∧ Nested items outer f.start

namespace Nested

variable {items : List Node} {frames : List Frame} {limit limit' : Nat} {n : Node}

theorem mono (nested : Nested items frames limit) (later : limit ≤ limit') :
    Nested items frames limit' := by
  cases frames with
  | nil => exact Row.mono nested (Nat.le_refl 0) later
  | cons f outer =>
      obtain ⟨before, row, outside⟩ := nested
      exact ⟨Nat.lt_of_lt_of_le before later, row.mono (Nat.le_refl _) later, outside⟩

/-- The finished items are before every open list. -/
theorem row (nested : Nested items frames limit) : Row 0 items.reverse limit := by
  induction frames generalizing limit with
  | nil => exact nested
  | cons f outer ih =>
      obtain ⟨before, -, outside⟩ := nested
      exact (ih outside).mono (Nat.le_refl 0) (Nat.le_of_lt before)

/-- An element behind everything else goes to the end of the innermost open list. -/
theorem addChild {f : Frame} {outer : List Frame} (nested : Nested items (f :: outer) limit)
    (placed : n.Placed) (start : limit ≤ n.span.start) (stop : n.span.stop ≤ limit') :
    Nested items ({ f with children := n :: f.children } :: outer) limit' := by
  obtain ⟨before, row, outside⟩ := nested
  have given := placed.given
  refine ⟨by simp only; omega, ?_, outside⟩
  rw [List.reverse_cons]
  exact row.snoc before placed start stop

end Nested

namespace State

/-- What has been read is in order up to the current token, and the token, if there is one, has
started before the offset. -/
structure Laid (s : State) (offset : Nat) : Prop where
  nested : Nested s.items s.frames (s.mode.start?.getD offset)
  started : ∀ start, s.mode.start? = some start → start < offset

variable {s s' : State} {c : Char} {offset start : Nat} {text : List Char}

theorem laid_initial : initial.Laid 0 := ⟨Row.nil 0 0, by simp [initial, Mode.start?]⟩

/-- A state between tokens. -/
theorem laid_of_nested (nested : Nested s.items s.frames offset)
    (between : s.mode.start? = none) : s.Laid offset := by
  refine ⟨by rwa [between], fun start begun => ?_⟩
  rw [between] at begun
  cases begun

/-- A state in a token. -/
theorem laid_of_started (nested : Nested s.items s.frames start) (started : start < offset)
    (within : s.mode.start? = some start) : s.Laid offset := by
  refine ⟨by rwa [within], fun start' begun => ?_⟩
  rw [within] at begun
  cases begun
  exact started

/-- A finished element in the innermost open list. Outside every list there is none to add to. -/
theorem nested_addChild {limit limit' : Nat} {n : Node} (nested : Nested s.items s.frames limit)
    (placed : n.Placed) (start : limit ≤ n.span.start) (stop : n.span.stop ≤ limit') :
    Nested (s.addChild n).items (s.addChild n).frames limit' := by
  have given := placed.given
  have longer : limit ≤ limit' := by omega
  cases frames : s.frames with
  | nil =>
      rw [frames] at nested
      simpa only [State.addChild, frames] using nested.mono longer
  | cons f outer =>
      rw [frames] at nested
      simpa only [State.addChild, frames] using nested.addChild placed start stop

/-- A leaf from the start of the token to the offset `stop` goes into the innermost open list. -/
theorem nested_leaf (nested : Nested s.items s.frames start) {stop : Nat} (given : start < stop)
    (kind : Kind) (value : String) :
    let s' := s.addChild ⟨kind, value, ⟨start, stop⟩, none, []⟩
    Nested s'.items s'.frames stop :=
  nested_addChild nested (Node.placed_leaf given) (Nat.le_refl _) (Nat.le_refl _)

theorem offset_closeSymbol (s : State) (start : Nat) (text : List Char) :
    (s.closeSymbol start text).offset = s.offset := by
  rw [State.closeSymbol, State.addChild]
  cases s.frames <;> rfl

theorem closeSymbol_nested (nested : Nested s.items s.frames start) (started : start < s.offset)
    (text : List Char) :
    Nested (s.closeSymbol start text).items (s.closeSymbol start text).frames
      (s.closeSymbol start text).offset := by
  rw [offset_closeSymbol]
  exact nested_leaf nested started _ _

theorem closeList_laid (nested : Nested s.items s.frames s.offset) (closes : s.ClosesList s') :
    s'.Laid (s.offset + 1) := by
  have placed : ∀ {f outer}, s.frames = f :: outer →
      (s.nodeOf f).Placed ∧ Nested s.items outer f.start := by
    intro f outer frames
    rw [frames] at nested
    obtain ⟨before, row, outside⟩ := nested
    exact ⟨row.list (Nat.lt_succ_self _) (Nat.lt_succ_self _) (Nat.lt_succ_of_lt before) _ _ _,
      outside⟩
  cases closes with
  | item frames =>
      obtain ⟨placed, outside⟩ := placed frames
      refine laid_of_nested ?_ rfl
      simp only [State.addItem, Nested, List.reverse_cons]
      exact Row.snoc outside (Nat.zero_le _) (placed.withDoc _) (Nat.le_refl _) (Nat.le_refl _)
  | element frames =>
      obtain ⟨placed, outside⟩ := placed frames
      exact laid_of_nested (outside.addChild placed (Nat.le_refl _) (Nat.le_refl _)) rfl

theorem openList_laid (nested : Nested s.items s.frames s.offset) (opens : s.OpensList s')
    (later : s.offset < offset) : s'.Laid offset := by
  cases opens
  exact laid_of_started nested later rfl

/-! ### One character -/

theorem readsOutside_laid (nested : Nested s.items s.frames s.offset) {newlines : Nat}
    (reads : s.ReadsOutside newlines c s') : s'.Laid (s.offset + c.utf8Size) := by
  have later : s.offset < s.offset + c.utf8Size := Nat.lt_add_of_pos_right c.utf8Size_pos
  have moved := nested.mono (Nat.le_of_lt later)
  cases reads with
  | layout => exact laid_of_nested moved rfl
  | emptyLine => exact laid_of_nested moved rfl
  | semicolon => exact laid_of_nested moved rfl
  | paren opens => exact openList_laid nested opens later

theorem readsInside_laid (nested : Nested s.items s.frames s.offset)
    (reads : s.ReadsInside c s') : s'.Laid (s.offset + c.utf8Size) := by
  have later : s.offset < s.offset + c.utf8Size := Nat.lt_add_of_pos_right c.utf8Size_pos
  cases reads with
  | layout => exact laid_of_nested (nested.mono (Nat.le_of_lt later)) rfl
  | close closes => exact closeList_laid nested closes
  | paren opens => exact openList_laid nested opens later
  | quote => exact laid_of_started nested later rfl
  | symbol => exact laid_of_started nested later rfl

/-- Between tokens, everything is before the offset. -/
theorem Laid.between (laid : s.Laid s.offset) (between : s.mode.start? = none) :
    Nested s.items s.frames s.offset := by
  have nested := laid.nested
  rwa [between] at nested

/-- In a token, everything is before its start, and the start is before the offset. -/
theorem Laid.within (laid : s.Laid s.offset) (within : s.mode.start? = some start) :
    Nested s.items s.frames start ∧ start < s.offset := by
  have nested := laid.nested
  rw [within] at nested
  exact ⟨nested, laid.started start within⟩

/-- A token goes on from where it started. -/
theorem Laid.goOn (laid : s.Laid s.offset) (within : s.mode.start? = some start) (token : Mode)
    (same : token.start? = some start) (later : s.offset < offset) :
    Laid { s with mode := token } offset := by
  obtain ⟨nested, started⟩ := laid.within within
  exact laid_of_started nested (Nat.lt_trans started later) same

/-- Every character keeps the order. -/
theorem Laid.reads (laid : s.Laid s.offset) (reads : s.Reads c s') :
    s'.Laid (s.offset + c.utf8Size) := by
  have later : s.offset < s.offset + c.utf8Size := Nat.lt_add_of_pos_right c.utf8Size_pos
  cases reads with
  | outside mode reads => exact readsOutside_laid (laid.between (congrArg _ mode)) reads
  | endComment mode =>
      have nested := laid.between (congrArg _ mode)
      exact laid_of_nested (nested.mono (Nat.le_of_lt later)) rfl
  | comment mode =>
      have nested := laid.between (congrArg _ mode)
      exact laid_of_nested (nested.mono (Nat.le_of_lt later)) rfl
  | opened mode => exact laid.goOn (congrArg _ mode) s.mode (congrArg _ mode) later
  | startHead mode => exact laid.goOn (congrArg _ mode) _ rfl later
  | head mode => exact laid.goOn (congrArg _ mode) _ rfl later
  | @endHead _ start text _ mode _ reads =>
      obtain ⟨nested, started⟩ := laid.within (congrArg _ mode)
      have inside : Nested (s.closeHead start text).items (s.closeHead start text).frames
          s.offset := ⟨started, Row.nil _ _, nested⟩
      exact readsInside_laid (s := s.closeHead start text) inside reads
  | inside mode reads => exact readsInside_laid (laid.between (congrArg _ mode)) reads
  | symbol mode => exact laid.goOn (congrArg _ mode) _ rfl later
  | @endSymbol _ start text _ mode _ reads =>
      obtain ⟨nested, started⟩ := laid.within (congrArg _ mode)
      rw [← offset_closeSymbol s start text]
      exact readsInside_laid (closeSymbol_nested nested started text) reads
  | endString mode =>
      obtain ⟨nested, started⟩ := laid.within (congrArg _ mode)
      exact laid_of_nested (nested_leaf nested (Nat.lt_trans started later) _ _) rfl
  | backslash mode => exact laid.goOn (congrArg _ mode) _ rfl later
  | string mode => exact laid.goOn (congrArg _ mode) _ rfl later
  | escape mode => exact laid.goOn (congrArg _ mode) _ rfl later

/-! ### Texts -/

theorem Laid.step (laid : s.Laid s.offset) (stepped : s.step c = .ok s') :
    s'.Laid s'.offset := by
  obtain ⟨t, reads, rfl⟩ := reads_of_step stepped
  obtain ⟨nested, started⟩ := laid.reads reads
  exact ⟨nested, started⟩

theorem Laid.run (laid : s.Laid s.offset) (ran : s.run text = .ok s') : s'.Laid s'.offset :=
  run_invariant (fun _ s => s.Laid s.offset) (fun _ _ _ _ laid stepped => laid.step stepped) []
    laid ran

theorem Laid.finish (laid : s.Laid s.offset) {doc : Option String} {items : List Node}
    (finished : s.finish = .ok (doc, items)) : Row 0 items s.offset := by
  cases finishes_of_eq_ok finished with
  | outside mode => exact (laid.between (congrArg _ mode)).row
  | comment mode => exact (laid.between (congrArg _ mode)).row

end State

/-- **Places.** The items that are read from a text are trees with places in the text, one after
the other. -/
theorem row_of_parse {path : Path} {text : String} {u : SourceUnit}
    (parsed : frontend.parse path text = .ok u) : Row 0 u.items text.utf8ByteSize := by
  obtain ⟨doc, items, accepted, rfl⟩ := parse_eq_ok_iff.mp parsed
  obtain ⟨s, ran, finished⟩ := read_eq_ok_iff.mp accepted
  have row := (State.laid_initial.run ran).finish finished
  have reached := State.offset_of_run ran
  rw [width_toList] at reached
  simpa [reached, State.initial] using row

end Graft.Sexp
