import Graft.Proofs.Sexp.Steps
import Graft.Proofs.Tree.Bare

/-!
# Reading without places

Reading keeps offsets only to give places to the nodes that it completes. `State.bare` forgets them
all: the offset of the next character, where the current token and the open lists have started, and
the spans of the finished nodes. What a character does to a state is, places aside, what it does to
the bare state, `bare_read`. So states that differ in places only go on alike: they read the same
characters, raise the same faults, and end with the same documentation and the same items.
-/

namespace Graft.Sexp

/-- An open list without places. -/
def Frame.bare (f : Frame) : Frame := ⟨0, f.kind, f.head, f.children.map Node.bare⟩

/-- What the next character belongs to, without places. -/
def Mode.bare : Mode → Mode
  | .outside newlines => .outside newlines
  | .comment text => .comment text
  | .opened _ => .opened 0
  | .head _ text => .head 0 text
  | .inside => .inside
  | .symbol _ text => .symbol 0 text
  | .string _ text => .string 0 text
  | .escape _ text => .escape 0 text

section Results

variable {α β : Type} {f : α → β} {a b : Except Fault α}

/-- Results with the same image are both values, and these have the same image. -/
theorem exists_eq_ok_of_map_eq (same : a.map f = b.map f) {x : α} (ok : a = .ok x) :
    ∃ y, b = .ok y ∧ f x = f y := by
  subst ok
  cases b with
  | error fault => cases same
  | ok y => exact ⟨y, rfl, Except.ok.inj same⟩

/-- Results with the same image are both the same fault. -/
theorem eq_error_of_map_eq (same : a.map f = b.map f) {fault : Fault} (error : a = .error fault) :
    b = .error fault := by
  subst error
  cases b with
  | error fault' => exact congrArg Except.error (Except.error.inj same).symm
  | ok y => cases same

end Results

namespace State

/-- What has been read so far, without places. -/
def bare (s : State) : State :=
  ⟨0, s.mode.bare, s.frames.map Frame.bare, s.doc, s.items.map Node.bare, s.pending⟩

variable {s t s' : State} {c : Char} {fault : Fault}

@[simp] theorem bare_withMode (s : State) (mode : Mode) :
    bare { s with mode := mode } = { s.bare with mode := mode.bare } := rfl

@[simp] theorem bare_detach (s : State) : s.detach.bare = s.bare.detach := by
  simp [detach, bare, pendingDoc]

@[simp] theorem bare_keepComment (s : State) (text : List Char) :
    (s.keepComment text).bare = s.bare.keepComment text := rfl

@[simp] theorem bare_addChild (s : State) (n : Node) :
    (s.addChild n).bare = s.bare.addChild n.bare := by
  obtain ⟨offset, mode, frames, doc, items, pending⟩ := s
  cases frames <;> rfl

@[simp] theorem bare_addItem (s : State) (n : Node) :
    (s.addItem n).bare = s.bare.addItem n.bare := by
  cases n
  simp [addItem, bare, pendingDoc]

theorem bare_bare (s : State) : s.bare.bare = s.bare := by
  obtain ⟨offset, mode, frames, doc, items, pending⟩ := s
  cases mode <;> simp [bare, Mode.bare, Frame.bare, Node.bare_bare, Function.comp_def]

/-! ### Tokens and lists -/

@[simp] theorem bare_closeHead (s : State) (start : Nat) (text : List Char) :
    (s.closeHead start text).bare = s.bare.closeHead 0 text := by
  simp [closeHead, bare, Mode.bare, Frame.bare, Function.comp_def]

theorem bare_closeSymbol (s : State) (start : Nat) (text : List Char) :
    (s.closeSymbol start text).bare = (s.bare.closeSymbol 0 text).bare := by
  simp [closeSymbol, bare_bare]

theorem bare_closeString (s : State) (start : Nat) (text : List Char) :
    (s.closeString start text).bare = (s.bare.closeString 0 text).bare := by
  simp [closeString, bare_bare]

theorem bare_openList (s : State) : s.openList.map bare = s.bare.openList.map bare := by
  have depth : s.bare.frames.length = s.frames.length := List.length_map _
  rw [openList, openList, depth]
  split
  · rfl
  · simp [Except.map, bare_bare, Mode.bare]

theorem bare_closeList (s : State) : s.closeList.map bare = s.bare.closeList.map bare := by
  obtain ⟨offset, mode, frames, doc, items, pending⟩ := s
  match frames with
  | [] => rfl
  | [f] =>
      simp [closeList, bare, addItem, pendingDoc, Except.map, Node.bare_bare, Frame.bare,
        Function.comp_def]
  | f :: g :: outer =>
      simp [closeList, bare, addChild, Except.map, Node.bare_bare, Frame.bare,
        Function.comp_def]

theorem bare_stepOutside (s : State) (newlines : Nat) (c : Char) :
    (s.stepOutside newlines c).map bare = (s.bare.stepOutside newlines c).map bare := by
  rw [stepOutside, stepOutside]
  split
  · by_cases wide : 2 ≤ if c = '\n' then newlines + 1 else newlines
    · simp only [wide, if_true, Except.map, bare_withMode, bare_detach, bare_bare]
    · simp only [wide, if_false, Except.map, bare_withMode, bare_bare]
  · split
    · simp only [Except.map, bare_withMode, bare_bare]
    · split
      · exact bare_openList s
      · rfl

theorem bare_stepInside (s : State) (c : Char) :
    (s.stepInside c).map bare = (s.bare.stepInside c).map bare := by
  rw [stepInside, stepInside]
  split
  · simp only [Except.map, bare_withMode, bare_bare]
  · split
    · exact bare_closeList s
    · split
      · exact bare_openList s
      · split
        · simp only [Except.map, bare_withMode, bare_bare, Mode.bare]
        · split
          · simp only [Except.map, bare_withMode, bare_bare, Mode.bare]
          · rfl

/-- What a character does does not depend on places. -/
theorem bare_read (s : State) (c : Char) : (s.read c).map bare = (s.bare.read c).map bare := by
  have mode_bare : s.bare.mode = s.mode.bare := rfl
  rw [read, read, mode_bare]
  cases s.mode with
  | outside newlines => exact bare_stepOutside s newlines c
  | comment text =>
      dsimp only [Mode.bare]
      split <;> simp only [Except.map, bare_withMode, bare_keepComment, bare_bare]
  | opened start =>
      dsimp only [Mode.bare]
      split
      · simp only [Except.map, bare_bare]
      · split
        · simp only [Except.map, bare_withMode, bare_bare, Mode.bare]
        · rfl
  | head start text =>
      dsimp only [Mode.bare]
      split
      · simp only [Except.map, bare_withMode, bare_bare, Mode.bare]
      · rw [bare_stepInside, bare_closeHead]
  | inside => exact bare_stepInside s c
  | symbol start text =>
      dsimp only [Mode.bare]
      split
      · simp only [Except.map, bare_withMode, bare_bare, Mode.bare]
      · rw [bare_stepInside, bare_closeSymbol, ← bare_stepInside]
  | string start text =>
      dsimp only [Mode.bare]
      split
      · simp only [Except.map, bare_closeString s]
      · split <;> simp only [Except.map, bare_withMode, bare_bare, Mode.bare]
  | escape start text => simp only [Except.map, bare_withMode, bare_bare, Mode.bare]

/-! ### States that differ in places only -/

theorem map_bare_step (s : State) (c : Char) : (s.step c).map bare = (s.read c).map bare := by
  rw [step]
  cases s.read c <;> rfl

/-- **Steps.** A character does the same to states that differ in places only. -/
theorem step_congr (same : s.bare = t.bare) (c : Char) :
    (s.step c).map bare = (t.step c).map bare := by
  rw [map_bare_step, map_bare_step, bare_read, same, ← bare_read]

/-- What one of the states reads, the other reads. -/
theorem step_ok_congr (same : s.bare = t.bare) (stepped : s.step c = .ok s') :
    ∃ t', t.step c = .ok t' ∧ s'.bare = t'.bare :=
  exists_eq_ok_of_map_eq (step_congr same c) stepped

/-- A fault that one of the states raises, the other raises. -/
theorem step_error_congr (same : s.bare = t.bare) (stepped : s.step c = .error fault) :
    t.step c = .error fault :=
  eq_error_of_map_eq (step_congr same c) stepped

/-- The end of the text does not depend on places, but for those of the items. -/
theorem map_bare_finish (s : State) :
    s.finish.map (Prod.map id (List.map Node.bare)) =
      s.bare.finish.map (Prod.map id (List.map Node.bare)) := by
  have mode_bare : s.bare.mode = s.mode.bare := rfl
  have doc (t : State) : t.bare.detach.doc = t.detach.doc := by
    rw [← bare_detach]
    rfl
  have items (t : State) :
      t.bare.detach.items.reverse.map Node.bare = t.detach.items.reverse.map Node.bare := by
    simp [bare, detach, Node.bare_bare, Function.comp_def]
  rw [finish, finish, mode_bare]
  cases s.mode with
  | outside newlines => simp only [Mode.bare, Except.map, Prod.map, id_eq, doc, items]
  | comment text =>
      simp only [Mode.bare, Except.map, Prod.map, id_eq, ← bare_keepComment, doc, items]
  | _ => rfl

/-- **Ends.** The ends of states that differ in places only have the same documentation, and the
same items but for their places. -/
theorem finish_congr (same : s.bare = t.bare) :
    s.finish.map (Prod.map id (List.map Node.bare)) =
      t.finish.map (Prod.map id (List.map Node.bare)) := by
  rw [map_bare_finish, same, ← map_bare_finish]

/-- Where one of the states can end, the other can. -/
theorem finish_ok_congr {doc : Option String} {items : List Node} (same : s.bare = t.bare)
    (finished : s.finish = .ok (doc, items)) :
    ∃ items', t.finish = .ok (doc, items') ∧ items.map Node.bare = items'.map Node.bare := by
  obtain ⟨⟨doc', items'⟩, finished', kept⟩ :=
    exists_eq_ok_of_map_eq (finish_congr same) finished
  obtain ⟨rfl, items⟩ : doc = doc' ∧ items.map Node.bare = items'.map Node.bare :=
    Prod.mk.inj kept
  exact ⟨items', finished', items⟩

theorem finish_error_congr (same : s.bare = t.bare) (finished : s.finish = .error fault) :
    t.finish = .error fault :=
  eq_error_of_map_eq (finish_congr same) finished

end State

end Graft.Sexp
