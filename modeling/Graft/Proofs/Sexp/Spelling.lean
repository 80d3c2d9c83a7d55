import Graft.Proofs.Sexp.Spans
import Graft.Proofs.Text.Positions

/-!
# What stands at the place of a node

The place of a node cuts a part out of the text that was read, and the part spells the node. An
identifier is spelled by its value and a literal by a string that decodes to its value. A list is
spelled by a text from its opening to its closing parenthesis. No part ends inside a character, for
reading takes whole characters.

While a text is read, the finished nodes are spelled in what has been read so far, and so they stay
when more is read. The open lists and the current token reach from where they started to the end of
what has been read. `State.Spelled` is this invariant, and one character keeps it (`Spelled.reads`).
-/

namespace Graft.Sexp

open Node (forall_mem_preorder)

/-! ### Parts of a text -/

/-- The characters `part` stand in a text at a place. -/
def PartAt (text : List Char) (place : Span) (part : List Char) : Prop :=
  ∃ before after, text = before ++ part ++ after ∧ width before = place.start ∧
    width (before ++ part) = place.stop

/-- A text ends with the characters `token`, which start at an offset. -/
def Since (text : List Char) (start : Nat) (token : List Char) : Prop :=
  ∃ before, text = before ++ token ∧ width before = start

/-- How a node is written. -/
def Writes (part : List Char) (n : Node) : Prop :=
  match n.kind with
  | .ident => part = n.value.toList
  | .literal => ∃ string, part = '"' :: string ∧ StringText string n.value.toList
  | _ => ∃ inner, part = '(' :: inner ++ [')']

/-- The node is written at its place. -/
def SpelledIn (text : List Char) (n : Node) : Prop :=
  ∃ part, PartAt text n.span part ∧ Writes part n

/-- The characters of a string after its quotation mark, up to a place in it, and their value. -/
def StringStart (quoted value : List Char) : Prop :=
  ∀ rest value', StringText rest value' → StringText (quoted ++ rest) (value ++ value')

variable {text token part quoted value : List Char} {start : Nat} {n : Node} {c : Char}

theorem PartAt.snoc {place : Span} (here : PartAt text place part) (c : Char) :
    PartAt (text ++ [c]) place part := by
  obtain ⟨before, after, rfl, starts, stops⟩ := here
  exact ⟨before, after ++ [c], by simp, starts, stops⟩

theorem SpelledIn.snoc (spelled : SpelledIn text n) (c : Char) : SpelledIn (text ++ [c]) n := by
  obtain ⟨part, here, writes⟩ := spelled
  exact ⟨part, here.snoc c, writes⟩

theorem since_width (text token : List Char) : Since (text ++ token) (width text) token :=
  ⟨text, rfl, rfl⟩

theorem Since.snoc (since : Since text start token) (c : Char) :
    Since (text ++ [c]) start (token ++ [c]) := by
  obtain ⟨before, rfl, starts⟩ := since
  exact ⟨before, List.append_assoc .., starts⟩

/-- What a text ends with stands between its start and the end of the text. -/
theorem Since.partAt (since : Since text start token) :
    PartAt text ⟨start, width text⟩ token := by
  obtain ⟨before, rfl, starts⟩ := since
  exact ⟨before, [], by simp, starts, rfl⟩

theorem writes_list (list : n.kind.isLeaf = false) (inner : List Char) :
    Writes ('(' :: inner ++ [')']) n := by
  unfold Writes
  split
  · next kind => simp [kind, Kind.isLeaf] at list
  · next kind => simp [kind, Kind.isLeaf] at list
  · exact ⟨inner, rfl⟩

theorem stringStart_nil : StringStart [] [] := fun _ _ more => more

theorem StringStart.plain (begun : StringStart quoted value) (noQuote : c ≠ '"')
    (noBackslash : c ≠ '\\') : StringStart (quoted ++ [c]) (value ++ [c]) := by
  intro rest value' more
  simpa using begun _ _ (more.plain noQuote noBackslash)

theorem StringStart.escaped (begun : StringStart quoted value) (c : Char) :
    StringStart (quoted ++ ['\\'] ++ [c]) (value ++ [unescape c]) := by
  intro rest value' more
  simpa using begun _ _ (more.escaped c)

theorem StringStart.close (begun : StringStart quoted value) :
    StringText (quoted ++ ['"']) value := by
  simpa using begun _ _ .close

/-! ### The invariant -/

/-- An open list reaches to the end of the text, and its elements are spelled. -/
structure Frame.Spelled (text : List Char) (f : Frame) : Prop where
  opened : ∃ inner, Since text f.start ('(' :: inner)
  list : f.kind.isLeaf = false
  children : ∀ c ∈ f.children, ∀ m ∈ c.preorder, SpelledIn text m

/-- The current token reaches to the end of the text. -/
def Mode.Spelled (text : List Char) : Mode → Prop
  | .outside _ | .comment _ | .inside => True
  | .opened start | .head start _ => ∃ inner, Since text start ('(' :: inner)
  | .symbol start chars => Since text start chars.reverse
  | .string start chars =>
    ∃ quoted, Since text start ('"' :: quoted) ∧ StringStart quoted chars.reverse
  | .escape start chars =>
    ∃ quoted, Since text start ('"' :: quoted ++ ['\\']) ∧ StringStart quoted chars.reverse

theorem Frame.Spelled.snoc {f : Frame} (spelled : f.Spelled text) (c : Char) :
    f.Spelled (text ++ [c]) := by
  obtain ⟨⟨inner, since⟩, list, children⟩ := spelled
  exact ⟨⟨inner ++ [c], since.snoc c⟩, list,
    fun child member m below => (children child member m below).snoc c⟩

namespace State

/-- What has been gathered is spelled in the text. -/
structure Gathers (s : State) (text : List Char) : Prop where
  items : ∀ n ∈ s.items, ∀ m ∈ n.preorder, SpelledIn text m
  frames : ∀ f ∈ s.frames, f.Spelled text

/-- The invariant of reading: everything is spelled in the text that has been read. -/
structure Spelled (s : State) (text : List Char) : Prop where
  gathers : s.Gathers text
  mode : s.mode.Spelled text
  offset : s.offset = width text

variable {s s' : State} {chars : List Char}

theorem spelled_initial : initial.Spelled [] :=
  ⟨⟨by simp [initial], by simp [initial]⟩, trivial, rfl⟩

theorem Gathers.snoc (gathers : s.Gathers text) (c : Char) : s.Gathers (text ++ [c]) :=
  ⟨fun n item m below => (gathers.items n item m below).snoc c,
    fun f member => (gathers.frames f member).snoc c⟩

/-- A finished element that is spelled can be added. -/
theorem Gathers.addChild (gathers : s.Gathers text)
    (spelled : ∀ m ∈ n.preorder, SpelledIn text m) : (s.addChild n).Gathers text := by
  obtain ⟨items, frames⟩ := gathers
  rw [State.addChild]
  cases split : s.frames with
  | nil => exact ⟨items, frames⟩
  | cons f outer =>
      rw [split, List.forall_mem_cons] at frames
      obtain ⟨⟨opened, list, children⟩, outside⟩ := frames
      exact ⟨items, List.forall_mem_cons.mpr
        ⟨⟨opened, list, List.forall_mem_cons.mpr ⟨spelled, children⟩⟩, outside⟩⟩

/-- A leaf is spelled when its own part is. -/
theorem Gathers.addLeaf (gathers : s.Gathers text) (leaf : n.children = [])
    (spelled : SpelledIn text n) : (s.addChild n).Gathers text :=
  gathers.addChild (forall_mem_preorder.mpr ⟨spelled, by simp [leaf]⟩)

theorem Gathers.closeSymbol (gathers : s.Gathers text) (since : Since text start chars.reverse)
    (offset : s.offset = width text) : (s.closeSymbol start chars).Gathers text := by
  obtain ⟨items, frames⟩ := gathers.addLeaf
    (n := ⟨.ident, String.ofList chars.reverse, ⟨start, s.offset⟩, none, []⟩) rfl
    ⟨_, offset ▸ since.partAt, String.toList_ofList.symm⟩
  exact ⟨items, frames⟩

theorem offset_after (offset : s.offset = width text) (c : Char) (narrow : c.utf8Size = 1) :
    s.offset + 1 = width (text ++ [c]) := by
  simp [offset, narrow]

theorem Gathers.closeString (gathers : s.Gathers text) (since : Since text start ('"' :: quoted))
    (begun : StringStart quoted chars.reverse) (offset : s.offset = width text) :
    (s.closeString start chars).Gathers (text ++ ['"']) := by
  have stop := offset_after offset '"' rfl
  obtain ⟨items, frames⟩ := (gathers.snoc '"').addLeaf
    (n := ⟨.literal, String.ofList chars.reverse, ⟨start, s.offset + 1⟩, none, []⟩) rfl
    ⟨_, stop ▸ (since.snoc '"').partAt, _, rfl, by
      rw [String.toList_ofList]
      exact begun.close⟩
  exact ⟨items, frames⟩

/-- A list is spelled from its start to the parenthesis that closes it. -/
theorem Gathers.nodeOf {f : Frame} (gathers : s.Gathers text) (offset : s.offset = width text)
    (member : f ∈ s.frames) (doc : Option String) :
    ∀ m ∈ Node.preorder { s.nodeOf f with doc := doc }, SpelledIn (text ++ [')']) m := by
  obtain ⟨⟨inner, since⟩, list, children⟩ := gathers.frames f member
  have part := (since.snoc ')').partAt
  rw [← offset_after offset ')' rfl] at part
  refine forall_mem_preorder.mpr ⟨⟨_, part, writes_list list inner⟩, fun c child m below => ?_⟩
  exact (children c (List.mem_reverse.mp child) m below).snoc ')'

theorem Gathers.closeList (gathers : s.Gathers text) (offset : s.offset = width text)
    (closes : s.ClosesList s') :
    s'.Gathers (text ++ [')']) ∧ s'.mode.Spelled (text ++ [')']) := by
  obtain ⟨items, frames⟩ := gathers.snoc ')'
  cases closes with
  | item split =>
      have spelled := gathers.nodeOf offset (split ▸ List.mem_cons_self)
      exact ⟨⟨List.forall_mem_cons.mpr ⟨spelled _, items⟩, by simp [State.addItem]⟩, trivial⟩
  | @element f g outer split =>
      have spelled := gathers.nodeOf offset (split ▸ List.mem_cons_self) none
      rw [split, List.forall_mem_cons] at frames
      have rest : Gathers { s with frames := g :: outer } (text ++ [')']) := ⟨items, frames.2⟩
      obtain ⟨items, frames⟩ := rest.addChild spelled
      exact ⟨⟨items, frames⟩, trivial⟩

theorem Gathers.openList (gathers : s.Gathers text) (offset : s.offset = width text)
    (opens : s.OpensList s') :
    s'.Gathers (text ++ ['(']) ∧ s'.mode.Spelled (text ++ ['(']) := by
  obtain ⟨items, frames⟩ := gathers.snoc '('
  cases opens
  exact ⟨⟨items, frames⟩, [], offset ▸ since_width text ['(']⟩

/-! ### One character -/

theorem Gathers.readsOutside (gathers : s.Gathers text) (offset : s.offset = width text)
    {newlines : Nat} (reads : s.ReadsOutside newlines c s') :
    s'.Gathers (text ++ [c]) ∧ s'.mode.Spelled (text ++ [c]) := by
  obtain ⟨items, frames⟩ := gathers.snoc c
  cases reads with
  | layout => exact ⟨⟨items, frames⟩, trivial⟩
  | emptyLine => exact ⟨⟨items, frames⟩, trivial⟩
  | semicolon => exact ⟨⟨items, frames⟩, trivial⟩
  | paren opens => exact gathers.openList offset opens

theorem Gathers.readsInside (gathers : s.Gathers text) (offset : s.offset = width text)
    (reads : s.ReadsInside c s') :
    s'.Gathers (text ++ [c]) ∧ s'.mode.Spelled (text ++ [c]) := by
  obtain ⟨items, frames⟩ := gathers.snoc c
  cases reads with
  | layout => exact ⟨⟨items, frames⟩, trivial⟩
  | close closes => exact gathers.closeList offset closes
  | paren opens => exact gathers.openList offset opens
  | quote => exact ⟨⟨items, frames⟩, [], offset ▸ since_width text ['"'], stringStart_nil⟩
  | symbol => exact ⟨⟨items, frames⟩, offset ▸ since_width text [c]⟩

/-- Every character keeps the invariant. -/
theorem Spelled.reads (spelled : s.Spelled text) (reads : s.Reads c s') :
    s'.Gathers (text ++ [c]) ∧ s'.mode.Spelled (text ++ [c]) := by
  obtain ⟨gathers, token, offset⟩ := spelled
  obtain ⟨items, frames⟩ := gathers.snoc c
  cases reads with
  | outside mode reads => exact gathers.readsOutside offset reads
  | endComment mode => exact ⟨⟨items, frames⟩, trivial⟩
  | comment mode => exact ⟨⟨items, frames⟩, trivial⟩
  | opened mode =>
      rw [mode] at token ⊢
      obtain ⟨inner, since⟩ := token
      exact ⟨⟨items, frames⟩, _, since.snoc c⟩
  | startHead mode =>
      rw [mode] at token
      obtain ⟨inner, since⟩ := token
      exact ⟨⟨items, frames⟩, _, since.snoc c⟩
  | head mode =>
      rw [mode] at token
      obtain ⟨inner, since⟩ := token
      exact ⟨⟨items, frames⟩, _, since.snoc c⟩
  | @endHead _ start chars _ mode _ reads =>
      rw [mode] at token
      have list := isLeaf_listKind (String.ofList chars.reverse) (s.frames.head?.map (·.kind))
      have headed : (s.closeHead start chars).Gathers text :=
        ⟨gathers.items, List.forall_mem_cons.mpr ⟨⟨token, list, by simp⟩, gathers.frames⟩⟩
      exact headed.readsInside offset reads
  | inside mode reads => exact gathers.readsInside offset reads
  | symbol mode =>
      rw [mode] at token
      refine ⟨⟨items, frames⟩, ?_⟩
      simpa [Mode.Spelled] using Since.snoc token c
  | @endSymbol _ start chars _ mode _ reads =>
      rw [mode] at token
      have here := (offset_closeSymbol s start chars).trans offset
      exact (gathers.closeSymbol token offset).readsInside here reads
  | endString mode =>
      rw [mode] at token
      obtain ⟨quoted, since, begun⟩ := token
      exact ⟨gathers.closeString since begun offset, trivial⟩
  | backslash mode =>
      rw [mode] at token
      obtain ⟨quoted, since, begun⟩ := token
      exact ⟨⟨items, frames⟩, quoted, since.snoc '\\', begun⟩
  | string mode noQuote noBackslash =>
      rw [mode] at token
      obtain ⟨quoted, since, begun⟩ := token
      refine ⟨⟨items, frames⟩, quoted ++ [c], since.snoc c, ?_⟩
      rw [List.reverse_cons]
      exact begun.plain noQuote noBackslash
  | escape mode =>
      rw [mode] at token
      obtain ⟨quoted, since, begun⟩ := token
      refine ⟨⟨items, frames⟩, quoted ++ ['\\'] ++ [c], since.snoc c, ?_⟩
      rw [List.reverse_cons]
      exact begun.escaped c

/-! ### Texts -/

theorem Spelled.step (spelled : s.Spelled text) (stepped : s.step c = .ok s') :
    s'.Spelled (text ++ [c]) := by
  obtain ⟨t, reads, rfl⟩ := reads_of_step stepped
  obtain ⟨gathers, mode⟩ := spelled.reads reads
  refine ⟨⟨gathers.items, gathers.frames⟩, mode, ?_⟩
  simp [spelled.offset]

theorem Spelled.run {more : List Char} (spelled : s.Spelled text) (ran : s.run more = .ok s') :
    s'.Spelled (text ++ more) :=
  run_invariant (fun text s => s.Spelled text) (fun _ _ _ _ spelled stepped => spelled.step stepped)
    text spelled ran

theorem Spelled.finish (spelled : s.Spelled text) {doc : Option String} {items : List Node}
    (finished : s.finish = .ok (doc, items)) :
    ∀ n ∈ items, ∀ m ∈ n.preorder, SpelledIn text m := by
  have all : ∀ n ∈ s.items.reverse, ∀ m ∈ n.preorder, SpelledIn text m :=
    fun n member => spelled.gathers.items n (List.mem_reverse.mp member)
  cases finishes_of_eq_ok finished with
  | outside mode => exact all
  | comment mode => exact all

end State

/-- Every node that is read from a text is spelled in it. -/
theorem spelledIn_of_read {doc : Option String} {items : List Node}
    (accepted : read text = .ok (doc, items)) : ∀ n ∈ Node.preorderAll items, SpelledIn text n := by
  obtain ⟨s, ran, finished⟩ := read_eq_ok_iff.mp accepted
  have spelled := (State.spelled_initial.run ran).finish finished
  intro n member
  obtain ⟨item, top, below⟩ := Node.mem_preorderAll.mp member
  exact spelled item top n below

end Graft.Sexp
