import Graft.Frontend
import Graft.Proofs.Sexp.Shape
import Graft.Proofs.Sexp.Steps

/-!
# What is read

Everything that reading has gathered at any time can become part of a unit: the open lists hold
elements of their kind with room for the lists around them, the items have the shape of items, and
the texts of comments are clean. `State.Sound` is this invariant. One lemma for each thing that
reading does keeps it; `Sound.reads` puts them together, by the cases of `State.Reads`.
-/

namespace Graft.Sexp

/-- An open list that can be closed: its kind is that of its head and of the lists around it, and
its elements leave room for those. -/
structure Frame.Fits (outer : List Frame) (f : Frame) : Prop where
  kind : f.kind = listKind f.head (outer.head?.map (·.kind))
  head : IsSymbol f.head
  elements : ∀ c ∈ f.children, Element f.kind c
  room : ∀ c ∈ f.children, outer.length + 1 + c.nesting ≤ maxOpen + 1

/-- Open lists, the innermost first, each of which fits into the next. -/
def Fitting : List Frame → Prop
  | [] => True
  | f :: outer => f.Fits outer ∧ Fitting outer

/-- An item as it is read. -/
structure Item (n : Node) : Prop where
  shape : TopLevel n
  clean : ∀ d, n.doc = some d → Clean d

/-- Characters of a symbol, at least one. -/
def SymbolChars (text : List Char) : Prop :=
  text ≠ [] ∧ ∀ c ∈ text, isSymbolChar c = true

/-- What has been read of the current token belongs to it, and the token stands where it can. -/
def Mode.Fits (frames : List Frame) : Mode → Prop
  | .outside _ => frames = []
  | .comment text => frames = [] ∧ '\n' ∉ text
  | .opened _ => frames.length ≤ maxOpen
  | .head _ text => frames.length ≤ maxOpen ∧ SymbolChars text
  | .inside => frames ≠ []
  | .symbol _ text => frames ≠ [] ∧ SymbolChars text
  | .string _ _ => frames ≠ []
  | .escape _ _ => frames ≠ []

theorem SymbolChars.isSymbol {text : List Char} (symbol : SymbolChars text) :
    IsSymbol (String.ofList text.reverse) := by
  obtain ⟨given, chars⟩ := symbol
  rw [isSymbol_iff, String.toList_ofList]
  refine ⟨by simpa using given, ?_⟩
  intro c member
  exact chars c (List.mem_reverse.mp member)

theorem symbolChars_singleton {c : Char} (symbol : isSymbolChar c = true) : SymbolChars [c] :=
  ⟨by simp, by simpa using symbol⟩

theorem SymbolChars.cons {text : List Char} {c : Char} (symbol : SymbolChars text)
    (next : isSymbolChar c = true) : SymbolChars (c :: text) :=
  ⟨by simp, by simpa [next] using symbol.2⟩

namespace State

variable {s s' : State} {c : Char}

/-! ### The invariant -/

/-- What has been gathered, whatever the next character belongs to. -/
structure Held (s : State) : Prop where
  frames : Fitting s.frames
  depth : s.frames.length ≤ maxOpen + 1
  items : ∀ n ∈ s.items, Item n
  pending : ∀ l ∈ s.pending, CommentText l.toList
  doc : ∀ d, s.doc = some d → Clean d

/-- The invariant of reading. -/
structure Sound (s : State) : Prop where
  held : s.Held
  mode : s.mode.Fits s.frames

theorem sound_initial : initial.Sound :=
  ⟨⟨trivial, by decide, by simp [initial], by simp [initial], by simp [initial]⟩, rfl⟩

/-- What has been gathered does not depend on the mode. -/
theorem Held.withMode (held : s.Held) (mode : Mode) : Held { s with mode := mode } :=
  ⟨held.frames, held.depth, held.items, held.pending, held.doc⟩

theorem Held.innermost (held : s.Held) {f : Frame} {outer : List Frame}
    (frames : s.frames = f :: outer) :
    f.Fits outer ∧ Fitting outer ∧ outer.length + 1 ≤ maxOpen + 1 := by
  obtain ⟨fitting, depth, -, -, -⟩ := held
  rw [frames] at fitting depth
  exact ⟨fitting.1, fitting.2, depth⟩

/-! ### Comments and items -/

theorem Held.clean_pendingDoc (held : s.Held) (d : String) (doc : s.pendingDoc = some d) :
    Clean d := by
  rw [pendingDoc] at doc
  split at doc
  · cases doc
  · next given =>
      rw [← Option.some.inj doc]
      apply clean_intercalate
      · simpa using given
      · intro l member
        exact held.pending l (List.mem_reverse.mp member)

theorem Held.detach (held : s.Held) : s.detach.Held := by
  refine ⟨held.frames, held.depth, held.items, by simp [State.detach], ?_⟩
  intro d doc
  simp only [State.detach] at doc
  split at doc
  · exact held.clean_pendingDoc d doc
  · exact held.doc d doc

theorem Held.keepComment (held : s.Held) {text : List Char} (single : '\n' ∉ text) :
    (s.keepComment text).Held := by
  refine ⟨held.frames, held.depth, held.items, ?_, held.doc⟩
  intro l member
  rcases List.mem_cons.mp member with rfl | earlier
  · rw [String.toList_ofList]
    exact commentText_commentText (by simpa using single)
  · exact held.pending l earlier

theorem Held.addItem (held : s.Held) {n : Node} (shape : TopLevel n) : (s.addItem n).Held := by
  refine ⟨held.frames, held.depth, ?_, by simp [State.addItem], held.doc⟩
  intro m member
  rcases List.mem_cons.mp member with rfl | earlier
  · exact ⟨shape.withDoc s.pendingDoc, held.clean_pendingDoc⟩
  · exact held.items m earlier

/-! ### Elements -/

/-- An element with room around it can be added to the innermost list. -/
theorem Held.addChild (held : s.Held) {f : Frame} {outer : List Frame}
    (frames : s.frames = f :: outer) {n : Node} (element : Element f.kind n)
    (room : outer.length + 1 + n.nesting ≤ maxOpen + 1) : (s.addChild n).Held := by
  obtain ⟨fits, fitting, depth⟩ := held.innermost frames
  simp only [State.addChild, frames]
  refine ⟨⟨⟨fits.kind, fits.head, ?_, ?_⟩, fitting⟩, depth, held.items, held.pending, held.doc⟩
  · intro c member
    rcases List.mem_cons.mp member with rfl | earlier
    · exact element
    · exact fits.elements c earlier
  · intro c member
    rcases List.mem_cons.mp member with rfl | earlier
    · exact room
    · exact fits.room c earlier

/-- The list that the innermost open list becomes has room around it. -/
theorem nesting_nodeOf_le {f : Frame} {outer : List Frame} (fits : f.Fits outer)
    (depth : outer.length + 1 ≤ maxOpen + 1) (s : State) :
    outer.length + (s.nodeOf f).nesting ≤ maxOpen + 1 := by
  have inner : f.kind.isLeaf = false := by
    rw [fits.kind]
    exact isLeaf_listKind f.head _
  have children : Node.nestingAll f.children.reverse ≤ maxOpen + 1 - (outer.length + 1) := by
    rw [Node.nestingAll_le_iff]
    intro c member
    have room := fits.room c (List.mem_reverse.mp member)
    omega
  rw [nodeOf, Node.nesting_of_not_isLeaf inner]
  simp only
  omega

theorem Held.closeList (held : s.Held) (closes : s.ClosesList s') : s'.Sound := by
  have rest : ∀ {f outer}, s.frames = f :: outer → Held { s with frames := outer } := by
    intro f outer frames
    obtain ⟨-, fitting, depth⟩ := held.innermost frames
    exact ⟨fitting, Nat.le_of_succ_le depth, held.items, held.pending, held.doc⟩
  cases closes with
  | @item f frames =>
      obtain ⟨fits, -, depth⟩ := held.innermost frames
      have room := nesting_nodeOf_le fits depth s
      rw [List.length_nil, Nat.zero_add] at room
      have top : TopLevel (s.nodeOf f) :=
        ⟨fits.kind, fits.head, fun c member => fits.elements c (List.mem_reverse.mp member), room⟩
      exact ⟨((rest frames).addItem top).withMode (.outside 0), rfl⟩
  | @element f g outer frames =>
      obtain ⟨fits, -, depth⟩ := held.innermost frames
      have elements : ∀ c ∈ f.children.reverse, Element f.kind c :=
        fun c member => fits.elements c (List.mem_reverse.mp member)
      have kind : f.kind = innerKind g.kind := by
        rw [fits.kind, List.head?_cons, Option.map_some, listKind_some]
      have element : Element g.kind (s.nodeOf f) := by
        rw [nodeOf, kind]
        rw [kind] at elements
        exact .list fits.head elements
      exact ⟨((rest frames).addChild rfl element (nesting_nodeOf_le fits depth s)).withMode .inside,
        List.cons_ne_nil _ _⟩

theorem Held.openList (held : s.Held) (opens : s.OpensList s') : s'.Sound := by
  obtain ⟨room⟩ := opens
  exact ⟨held.withMode _, room⟩

theorem Held.closeHead (held : s.Held) {text : List Char} (room : s.frames.length ≤ maxOpen)
    (symbol : SymbolChars text) (start : Nat) : (s.closeHead start text).Held := by
  refine ⟨⟨⟨rfl, symbol.isSymbol, ?_, ?_⟩, held.frames⟩, Nat.succ_le_succ room, held.items,
    held.pending, held.doc⟩
  · intro c member
    cases member
  · intro c member
    cases member

/-- A leaf can be added to the innermost list. -/
theorem Held.addLeaf (held : s.Held) (given : s.frames ≠ []) {n : Node}
    (element : ∀ around, Element around n) (leaf : n.kind.isLeaf = true) :
    (s.addChild n).Held ∧ (s.addChild n).frames ≠ [] := by
  cases frames : s.frames with
  | nil => exact absurd frames given
  | cons f outer =>
      have room : outer.length + 1 + n.nesting ≤ maxOpen + 1 := by
        rw [Node.nesting_of_isLeaf leaf]
        exact (held.innermost frames).2.2
      refine ⟨held.addChild frames (element f.kind) room, ?_⟩
      simp [State.addChild, frames]

theorem Held.closeSymbol (held : s.Held) (given : s.frames ≠ []) {text : List Char}
    (symbol : SymbolChars text) (start : Nat) :
    (s.closeSymbol start text).Held ∧ (s.closeSymbol start text).frames ≠ [] := by
  obtain ⟨kept, more⟩ := held.addLeaf given (fun _ => .ident symbol.isSymbol) rfl
  exact ⟨kept.withMode .inside, more⟩

theorem Held.closeString (held : s.Held) (given : s.frames ≠ []) (start : Nat)
    (text : List Char) : (s.closeString start text).Sound := by
  obtain ⟨kept, more⟩ := held.addLeaf given (fun _ => .literal) rfl
  exact ⟨kept.withMode .inside, more⟩

/-! ### One character -/

theorem Held.readsOutside (held : s.Held) (outside : s.frames = []) {newlines : Nat}
    (reads : s.ReadsOutside newlines c s') : s'.Sound := by
  cases reads with
  | layout => exact ⟨held.withMode _, outside⟩
  | emptyLine => exact ⟨held.detach.withMode _, outside⟩
  | semicolon => exact ⟨held.withMode _, outside, List.not_mem_nil⟩
  | paren opens => exact held.openList opens

theorem Held.readsInside (held : s.Held) (inside : s.frames ≠ []) (reads : s.ReadsInside c s') :
    s'.Sound := by
  cases reads with
  | layout => exact ⟨held.withMode _, inside⟩
  | close closes => exact held.closeList closes
  | paren opens => exact held.openList opens
  | quote => exact ⟨held.withMode _, inside⟩
  | symbol symbol => exact ⟨held.withMode _, inside, symbolChars_singleton symbol⟩

/-- Every character keeps the invariant. -/
theorem Sound.reads (sound : s.Sound) (reads : s.Reads c s') : s'.Sound := by
  obtain ⟨held, fits⟩ := sound
  cases reads with
  | outside mode reads =>
      rw [mode] at fits
      exact held.readsOutside fits reads
  | endComment mode =>
      rw [mode] at fits
      exact ⟨(held.keepComment fits.2).withMode _, fits.1⟩
  | comment mode other =>
      rw [mode] at fits
      exact ⟨held.withMode _, fits.1, by simp [fits.2, Ne.symm other]⟩
  | opened mode layout => exact ⟨held, fits⟩
  | startHead mode symbol =>
      rw [mode] at fits
      exact ⟨held.withMode _, fits, symbolChars_singleton symbol⟩
  | head mode symbol =>
      rw [mode] at fits
      exact ⟨held.withMode _, fits.1, fits.2.cons symbol⟩
  | endHead mode other reads =>
      rw [mode] at fits
      exact (held.closeHead fits.1 fits.2 _).readsInside (List.cons_ne_nil _ _) reads
  | inside mode reads =>
      rw [mode] at fits
      exact held.readsInside fits reads
  | symbol mode symbol =>
      rw [mode] at fits
      exact ⟨held.withMode _, fits.1, fits.2.cons symbol⟩
  | endSymbol mode other reads =>
      rw [mode] at fits
      obtain ⟨kept, more⟩ := held.closeSymbol fits.1 fits.2 _
      exact kept.readsInside more reads
  | endString mode =>
      rw [mode] at fits
      exact held.closeString fits _ _
  | backslash mode =>
      rw [mode] at fits
      exact ⟨held.withMode _, fits⟩
  | string mode noQuote noBackslash =>
      rw [mode] at fits
      exact ⟨held.withMode _, fits⟩
  | escape mode =>
      rw [mode] at fits
      exact ⟨held.withMode _, fits⟩

/-- Every character keeps the invariant, wherever it stands. -/
theorem Sound.step (sound : s.Sound) (stepped : s.step c = .ok s') : s'.Sound := by
  obtain ⟨t, reads, rfl⟩ := reads_of_step stepped
  obtain ⟨held, fits⟩ := sound.reads reads
  exact ⟨⟨held.frames, held.depth, held.items, held.pending, held.doc⟩, fits⟩

/-- Every text keeps the invariant. -/
theorem Sound.run (sound : s.Sound) {text : List Char} (ran : s.run text = .ok s') : s'.Sound :=
  run_invariant (fun _ => Sound) (fun _ _ _ _ sound stepped => sound.step stepped) [] sound ran

theorem Sound.finish (sound : s.Sound) {doc : Option String} {items : List Node}
    (finished : s.finish = .ok (doc, items)) :
    (∀ n ∈ items, Item n) ∧ ∀ d, doc = some d → Clean d := by
  obtain ⟨held, fits⟩ := sound
  have shapes : ∀ n ∈ s.items.reverse, Item n :=
    fun n member => held.items n (List.mem_reverse.mp member)
  cases finishes_of_eq_ok finished with
  | outside mode => exact ⟨shapes, held.detach.doc⟩
  | comment mode =>
      rw [mode] at fits
      exact ⟨shapes, (held.keepComment fits.2).detach.doc⟩

end State

/-- A text is accepted when it is read to its end and can end there. -/
theorem read_eq_ok_iff {text : List Char} {unit : Option String × List Node} :
    read text = .ok unit ↔ ∃ s, State.initial.run text = .ok s ∧ s.finish = .ok unit := by
  rw [read]
  cases State.initial.run text with
  | error e => simp
  | ok s => cases finished : s.finish <;> simp [finished]

/-- The unit of a text has the items that are read from it. -/
theorem parse_eq_ok_iff {path : Path} {text : String} {u : SourceUnit} :
    frontend.parse path text = .ok u ↔
      ∃ doc items, read text.toList = .ok (doc, items) ∧ .ofItems ⟨path, text⟩ doc items = u := by
  simp only [frontend, parse]
  cases read text.toList with
  | error e => simp
  | ok unit =>
      obtain ⟨doc, items⟩ := unit
      simp

/-- **What is read.** Every item that is read has the shape of an item, and all documentation that
is read is clean. -/
theorem read_shape {text : List Char} {doc : Option String} {items : List Node}
    (accepted : read text = .ok (doc, items)) :
    (∀ n ∈ items, Item n) ∧ ∀ d, doc = some d → Clean d := by
  obtain ⟨s, ran, finished⟩ := read_eq_ok_iff.mp accepted
  exact (State.sound_initial.run ran).finish finished

end Graft.Sexp
