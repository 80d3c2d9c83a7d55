import Graft.Proofs.Sexp.Shape

/-!
# Reading a printed form

Reading is followed through a printed form from the small parts to the large: a run of characters
that belong to one token, an element of a list, the elements of a list, a block of comments, an
item, and all items. Each lemma says into which state the part takes the reader, whatever comes
after it. A symbol ends only with the character that follows it, so the lemma about an element
speaks of a next character that is none of a symbol.

`ReadsBack` is what holds of every element, by induction on its shape. `read_printChars` puts the
parts together.
-/

namespace Graft.Sexp

/-- The number of bytes of some characters. -/
def width : List Char → Nat
  | [] => 0
  | c :: text => c.utf8Size + width text

@[simp] theorem width_nil : width [] = 0 := rfl

@[simp] theorem width_cons (c : Char) (text : List Char) :
    width (c :: text) = c.utf8Size + width text := rfl

@[simp] theorem width_append (a b : List Char) : width (a ++ b) = width a + width b := by
  induction a with
  | nil => simp
  | cons c a ih => simp [ih, Nat.add_assoc]

namespace State

open Node (bare nesting_of_not_isLeaf)

variable {o start : Nat} {frames outer : List Frame} {f : Frame} {doc : Option String}
variable {items : List Node} {pending : List String} {rest : List Char} {c : Char}

/-- Reading goes on after a character that can stand where it stands. -/
theorem run_cons {mode mode' : Mode} {frames' : List Frame} {doc' : Option String}
    {items' : List Node} {pending' : List String}
    (read : read ⟨o, mode, frames, doc, items, pending⟩ c =
      .ok ⟨o, mode', frames', doc', items', pending'⟩) (rest : List Char) :
    run ⟨o, mode, frames, doc, items, pending⟩ (c :: rest) =
      run ⟨o + c.utf8Size, mode', frames', doc', items', pending'⟩ rest := by
  rw [run, step, read]

/-! ### Tokens -/

/-- A run of characters that all belong to one token. -/
theorem run_token {mode : List Char → Mode} (chars : List Char)
    (collects : ∀ o text, ∀ c ∈ chars,
      read ⟨o, mode text, frames, doc, items, pending⟩ c =
        .ok ⟨o, mode (c :: text), frames, doc, items, pending⟩)
    (o : Nat) (text rest : List Char) :
    run ⟨o, mode text, frames, doc, items, pending⟩ (chars ++ rest) =
      run ⟨o + width chars, mode (chars.reverse ++ text), frames, doc, items, pending⟩ rest := by
  induction chars generalizing o text with
  | nil => rfl
  | cons c chars ih =>
      have later := ih (fun o text d member => collects o text d (List.mem_cons_of_mem _ member))
      rw [List.cons_append, run_cons (collects o text c List.mem_cons_self), later]
      simp [width, Nat.add_assoc]

theorem run_symbolChars {chars : List Char} (symbol : ∀ c ∈ chars, isSymbolChar c = true)
    (o : Nat) (text rest : List Char) :
    run ⟨o, .symbol start text, frames, doc, items, pending⟩ (chars ++ rest) =
      run ⟨o + width chars, .symbol start (chars.reverse ++ text), frames, doc, items, pending⟩
        rest := by
  apply run_token
  intro o text c member
  simp [read, symbol c member]

theorem run_headChars {chars : List Char} (symbol : ∀ c ∈ chars, isSymbolChar c = true)
    (o : Nat) (text rest : List Char) :
    run ⟨o, .head start text, frames, doc, items, pending⟩ (chars ++ rest) =
      run ⟨o + width chars, .head start (chars.reverse ++ text), frames, doc, items, pending⟩
        rest := by
  apply run_token
  intro o text c member
  simp [read, symbol c member]

theorem run_commentChars {chars : List Char} (single : '\n' ∉ chars) (o : Nat)
    (text rest : List Char) :
    run ⟨o, .comment text, frames, doc, items, pending⟩ (chars ++ rest) =
      run ⟨o + width chars, .comment (chars.reverse ++ text), frames, doc, items, pending⟩
        rest := by
  apply run_token
  intro o text c member
  have other : c ≠ '\n' := fun same => single (same ▸ member)
  simp [read, other]

/-- A character of a symbol is no layout. -/
theorem isLayout_of_symbolChar (symbol : isSymbolChar c = true) : Text.isLayout c = false := by
  cases layout : Text.isLayout c with
  | false => rfl
  | true => simp [isSymbolChar, Text.isBlank_of_isLayout layout] at symbol

/-- Between elements, a character of a symbol starts nothing but a symbol. -/
theorem stepInside_symbolChar (s : State) (symbol : isSymbolChar c = true) :
    s.stepInside c = .ok { s with mode := .symbol s.offset [c] } := by
  have solid := isLayout_of_symbolChar symbol
  have others : c ≠ '(' ∧ c ≠ ')' ∧ c ≠ '"' := by
    simp only [isSymbolChar, Bool.and_eq_true, bne_iff_ne] at symbol
    exact ⟨symbol.1.1.1.2, symbol.1.1.2, symbol.1.2⟩
  simp [stepInside, solid, others, symbol]

/-- The head of a list ends before a character that is none of a symbol. -/
theorem run_closeHead (text : List Char) (stop : isSymbolChar c = false) :
    run ⟨o, .head start text, frames, doc, items, pending⟩ (c :: rest) =
      run ⟨o, .inside, ⟨start, listKind (String.ofList text.reverse)
        (frames.head?.map (·.kind)), String.ofList text.reverse, []⟩ :: frames, doc, items,
        pending⟩ (c :: rest) := by
  simp [run, step, read, stop, closeHead]

/-- An identifier ends before a character that is none of a symbol. -/
theorem run_closeSymbol (text : List Char) (stop : isSymbolChar c = false) :
    run ⟨o, .symbol start text, f :: outer, doc, items, pending⟩ (c :: rest) =
      run ⟨o, .inside, { f with children :=
        ⟨.ident, String.ofList text.reverse, ⟨start, o⟩, none, []⟩ :: f.children } :: outer, doc,
        items, pending⟩ (c :: rest) := by
  simp [run, step, read, stop, closeSymbol, addChild]

/-- A string ends with its second quotation mark. -/
theorem run_closeString (text : List Char) :
    run ⟨o, .string start text, f :: outer, doc, items, pending⟩ ('"' :: rest) =
      run ⟨o + 1, .inside, { f with children :=
        ⟨.literal, String.ofList text.reverse, ⟨start, o + 1⟩, none, []⟩ :: f.children } :: outer,
        doc, items, pending⟩ rest := rfl

/-- A list inside another ends with its parenthesis. -/
theorem run_closeList (g : Frame) :
    run ⟨o, .inside, g :: f :: outer, doc, items, pending⟩ (')' :: rest) =
      run ⟨o + 1, .inside, { f with children :=
        ⟨g.kind, g.head, ⟨g.start, o + 1⟩, none, g.children.reverse⟩ :: f.children } :: outer, doc,
        items, pending⟩ rest := rfl

/-- A list opens where there is room for it. -/
theorem run_openList (room : frames.length ≤ maxOpen) :
    run ⟨o, .inside, frames, doc, items, pending⟩ ('(' :: rest) =
      run ⟨o + 1, .opened o, frames, doc, items, pending⟩ rest := by
  apply run_cons
  simp only [read, stepInside, openList, if_neg (Nat.not_lt.mpr room)]
  rfl

/-- An escaped character is read as the character. -/
theorem run_escapeChar (o : Nat) (text : List Char) (c : Char) (rest : List Char) :
    run ⟨o, .string start text, frames, doc, items, pending⟩ (escapeChar c ++ rest) =
      run ⟨o + width (escapeChar c), .string start (c :: text), frames, doc, items, pending⟩
        rest := by
  by_cases quote : c = '"'
  · subst quote
    rfl
  by_cases backslash : c = '\\'
  · subst backslash
    rfl
  by_cases feed : c = '\n'
  · subst feed
    rfl
  by_cases tab : c = '\t'
  · subst tab
    rfl
  have plain : escapeChar c = [c] := by
    unfold escapeChar
    split <;> first | contradiction | rfl
  simp [plain, run, step, read, quote, backslash]

/-- The characters of a literal, escaped, are read as the literal. -/
theorem run_escaped (value : List Char) (o : Nat) (text rest : List Char) :
    run ⟨o, .string start text, frames, doc, items, pending⟩ (value.flatMap escapeChar ++ rest) =
      run ⟨o + width (value.flatMap escapeChar), .string start (value.reverse ++ text), frames,
        doc, items, pending⟩ rest := by
  induction value generalizing o text with
  | nil => rfl
  | cons c value ih =>
      rw [List.flatMap_cons, List.append_assoc, run_escapeChar, ih]
      simp [Nat.add_assoc]

/-! ### Elements of a list -/

/-- An element that reading takes from its printed form and adds to the list around it, when there
is room for it, up to the character that follows it. -/
def ReadsBack (around : Kind) (n : Node) : Prop :=
  ∀ o f outer doc items pending, f.kind = around → outer.length + 1 + n.nesting ≤ maxOpen + 1 →
    ∃ o' m, m.bare = n.bare ∧ ∀ c rest, isSymbolChar c = false →
      run ⟨o, .inside, f :: outer, doc, items, pending⟩ (printNode n ++ c :: rest) =
        run ⟨o', .inside, { f with children := m :: f.children } :: outer, doc, items, pending⟩
          (c :: rest)

theorem readsBack_ident {around : Kind} {name : String} {span : Span} (symbol : IsSymbol name) :
    ReadsBack around ⟨.ident, name, span, none, []⟩ := by
  intro o f outer doc items pending _ _
  obtain ⟨given, chars⟩ := isSymbol_iff.mp symbol
  cases split : name.toList with
  | nil => exact absurd split given
  | cons d ds =>
      rw [split] at chars
      refine ⟨o + d.utf8Size + width ds,
        ⟨.ident, name, ⟨o, o + d.utf8Size + width ds⟩, none, []⟩, by simp, ?_⟩
      intro c rest stop
      have first : read ⟨o, .inside, f :: outer, doc, items, pending⟩ d =
          .ok ⟨o, .symbol o [d], f :: outer, doc, items, pending⟩ :=
        stepInside_symbolChar _ (chars d List.mem_cons_self)
      have whole : String.ofList (ds.reverse ++ [d]).reverse = name := by
        apply String.toList_inj.mp
        simp [split]
      rw [printNode, split, List.cons_append, run_cons first,
        run_symbolChars fun e member => chars e (List.mem_cons_of_mem _ member),
        run_closeSymbol _ stop, whole]

theorem readsBack_literal {around : Kind} {text : String} {span : Span} :
    ReadsBack around ⟨.literal, text, span, none, []⟩ := by
  intro o f outer doc items pending _ _
  let stop := o + 1 + width (text.toList.flatMap escapeChar) + 1
  refine ⟨stop, ⟨.literal, text, ⟨o, stop⟩, none, []⟩, by simp, ?_⟩
  intro c rest _
  have quote : read ⟨o, .inside, f :: outer, doc, items, pending⟩ '"' =
      .ok ⟨o, .string o [], f :: outer, doc, items, pending⟩ := rfl
  rw [printNode, List.cons_append, List.cons_append, List.append_assoc, run_cons quote,
    run_escaped, List.singleton_append]
  rw [run_closeString]
  simp
  rfl

/-- After an element comes a character that is none of a symbol. -/
theorem printChildren_append (ns : List Node) (stop : isSymbolChar c = false) (rest : List Char) :
    ∃ c' rest', isSymbolChar c' = false ∧ printChildren ns ++ c :: rest = c' :: rest' := by
  cases ns with
  | nil => exact ⟨c, rest, stop, rfl⟩
  | cons n ns => exact ⟨' ', _, by decide, rfl⟩

/-- The elements of a list are read back if each of them is. -/
theorem run_printChildren {ns : List Node} {around : Kind} (o : Nat) (f : Frame)
    (outer : List Frame) (doc : Option String) (items : List Node) (pending : List String)
    (kind : f.kind = around) (elements : ∀ n ∈ ns, ReadsBack around n)
    (room : outer.length + 1 + Node.nestingAll ns ≤ maxOpen + 1) :
    ∃ (o' : Nat) (ms : List Node), ms.map Node.bare = ns.map Node.bare ∧
      ∀ c rest, isSymbolChar c = false →
      run ⟨o, .inside, f :: outer, doc, items, pending⟩ (printChildren ns ++ c :: rest) =
        run ⟨o', .inside, { f with children := ms.reverse ++ f.children } :: outer, doc, items,
          pending⟩ (c :: rest) := by
  induction ns generalizing f o with
  | nil => exact ⟨o, [], rfl, fun c rest _ => rfl⟩
  | cons n ns ih =>
      have here : n.nesting ≤ Node.nestingAll (n :: ns) := Nat.le_max_left _ _
      have later : Node.nestingAll ns ≤ Node.nestingAll (n :: ns) := Nat.le_max_right _ _
      obtain ⟨o₁, m, same, first⟩ := elements n List.mem_cons_self (o + 1) f outer doc items
        pending kind (by omega)
      obtain ⟨o₂, ms, sames, others⟩ := ih o₁ { f with children := m :: f.children } kind
        (fun m member => elements m (List.mem_cons_of_mem _ member)) (by omega)
      refine ⟨o₂, m :: ms, by rw [List.map_cons, List.map_cons, same, sames], ?_⟩
      intro c rest stop
      obtain ⟨c', rest', stop', next⟩ := printChildren_append ns stop rest
      have space : read ⟨o, .inside, f :: outer, doc, items, pending⟩ ' ' =
          .ok ⟨o, .inside, f :: outer, doc, items, pending⟩ := rfl
      have wide : ' '.utf8Size = 1 := rfl
      rw [printChildren, List.cons_append, List.cons_append, List.append_assoc, next,
        run_cons space, wide, first c' rest' stop', ← next, others c rest stop]
      simp

/-- The head and the elements of a list, up to the parenthesis that closes it. -/
theorem run_listBody {head : String} {children : List Node} {kind : Kind} (o start : Nat)
    (frames : List Frame) (doc : Option String) (items : List Node) (pending : List String)
    (symbol : IsSymbol head) (expected : listKind head (frames.head?.map (·.kind)) = kind)
    (elements : ∀ n ∈ children, ReadsBack kind n)
    (room : frames.length + 1 + Node.nestingAll children ≤ maxOpen + 1) :
    ∃ (o' : Nat) (ms : List Node), ms.map Node.bare = children.map Node.bare ∧ ∀ rest,
      run ⟨o, .opened start, frames, doc, items, pending⟩
          (head.toList ++ printChildren children ++ ')' :: rest) =
        run ⟨o', .inside, ⟨start, kind, head, ms.reverse⟩ :: frames, doc, items, pending⟩
          (')' :: rest) := by
  obtain ⟨given, chars⟩ := isSymbol_iff.mp symbol
  cases split : head.toList with
  | nil => exact absurd split given
  | cons d ds =>
      rw [split] at chars
      obtain ⟨o', ms, same, others⟩ := run_printChildren (o + d.utf8Size + width ds)
        ⟨start, kind, head, []⟩ frames doc items pending rfl elements room
      refine ⟨o', ms, same, ?_⟩
      intro rest
      have first : read ⟨o, .opened start, frames, doc, items, pending⟩ d =
          .ok ⟨o, .head start [d], frames, doc, items, pending⟩ := by
        simp [read, chars d List.mem_cons_self, isLayout_of_symbolChar (chars d List.mem_cons_self)]
      have whole : String.ofList (ds.reverse ++ [d]).reverse = head := by
        apply String.toList_inj.mp
        simp [split]
      obtain ⟨c, rest', stop, next⟩ :=
        printChildren_append children (by decide : isSymbolChar ')' = false) rest
      rw [List.append_assoc, next, List.cons_append, run_cons first,
        run_headChars fun e member => chars e (List.mem_cons_of_mem _ member),
        run_closeHead _ stop, whole, expected, ← next, others ')' rest (by decide)]
      simp

theorem readsBack_list {around : Kind} {head : String} {span : Span} {children : List Node}
    (symbol : IsSymbol head) (elements : ∀ n ∈ children, ReadsBack (innerKind around) n) :
    ReadsBack around ⟨innerKind around, head, span, none, children⟩ := by
  intro o f outer doc items pending kind room
  rw [Node.nesting_of_not_isLeaf (isLeaf_innerKind around)] at room
  simp only at room
  have expected : listKind head ((f :: outer).head?.map (·.kind)) = innerKind around := by
    rw [List.head?_cons, Option.map_some, listKind_some, kind]
  obtain ⟨o', ms, same, body⟩ := run_listBody (o + 1) o (f :: outer) doc items pending symbol
    expected elements (by simp only [List.length_cons]; omega)
  refine ⟨o' + 1, ⟨innerKind around, head, ⟨o, o' + 1⟩, none, ms⟩, by simp [same], ?_⟩
  intro c rest _
  have shallow : (f :: outer).length ≤ maxOpen := by
    rw [List.length_cons]
    omega
  rw [printNode_list (isLeaf_innerKind around), List.append_assoc, List.cons_append,
    List.cons_append, run_openList shallow, List.singleton_append, body]
  rw [run_closeList, List.reverse_reverse]

/-- **Elements.** Every element is read back from its printed form. -/
theorem readsBack {around : Kind} {n : Node} (element : Element around n) :
    ReadsBack around n := by
  induction element with
  | ident symbol => exact readsBack_ident symbol
  | literal => exact readsBack_literal
  | list symbol _ ih => exact readsBack_list symbol ih

/-! ### Comments and items -/

/-- The text of a block of comments, given with the latest first. -/
def blockText (pending : List String) : Option String :=
  if pending.isEmpty then none else some ("\n".intercalate pending.reverse)

/-- A list outside every list ends with its parenthesis and takes the comments before it. -/
theorem run_closeItem (g : Frame) :
    run ⟨o, .inside, [g], doc, items, pending⟩ (')' :: rest) =
      run ⟨o + 1, .outside 0, [], doc,
        ⟨g.kind, g.head, ⟨g.start, o + 1⟩, blockText pending, g.children.reverse⟩ :: items, []⟩
        rest := rfl

/-- Where no comments wait, a line feed changes nothing. -/
theorem run_lineFeed (newlines : Nat) :
    run ⟨o, .outside newlines, [], doc, items, []⟩ ('\n' :: rest) =
      run ⟨o + 1, .outside (newlines + 1), [], doc, items, []⟩ rest := by
  apply run_cons
  have kept : detach ⟨o, .outside newlines, [], doc, items, []⟩ =
      ⟨o, .outside newlines, [], doc, items, []⟩ := by
    cases doc <;> simp [detach, pendingDoc]
  simp [read, stepOutside, Text.isLayout, kept]

/-- An empty line before all items makes the comments that wait the documentation of the unit. -/
theorem run_emptyLine :
    run ⟨o, .outside 1, [], none, [], pending⟩ ('\n' :: rest) =
      run ⟨o + 1, .outside 2, [], blockText pending, [], []⟩ rest := by
  apply run_cons
  simp [read, stepOutside, Text.isLayout, detach, pendingDoc, blockText]

/-- Printed comments wait for what they document. -/
theorem run_printDocLines {ls : List (List Char)} (single : ∀ l ∈ ls, '\n' ∉ l) (o : Nat)
    (newlines : Nat) (doc : Option String) (items : List Node) (pending : List String) :
    ∃ o', ∀ rest,
      run ⟨o, .outside newlines, [], doc, items, pending⟩ (ls.flatMap printDocLine ++ rest) =
        run ⟨o', .outside (if ls = [] then newlines else 1), [], doc, items,
          (ls.map fun l => String.ofList (dropReturns l)).reverse ++ pending⟩ rest := by
  induction ls generalizing o newlines pending with
  | nil => exact ⟨o, fun rest => rfl⟩
  | cons l ls ih =>
      obtain ⟨o', others⟩ := ih (fun l member => single l (List.mem_cons_of_mem _ member))
        (o + 1 + width (commentBody l) + 1) 1 (String.ofList (dropReturns l) :: pending)
      refine ⟨o', ?_⟩
      intro rest
      have opening : read ⟨o, .outside newlines, [], doc, items, pending⟩ ';' =
          .ok ⟨o, .comment [], [], doc, items, pending⟩ := rfl
      have close : ∀ o text, read ⟨o, .comment text, [], doc, items, pending⟩ '\n' =
          .ok ⟨o, .outside 1, [], doc, items,
            String.ofList (commentText text.reverse) :: pending⟩ := fun _ _ => rfl
      have body := lineFeed_notMem_commentBody (single l List.mem_cons_self)
      rw [List.flatMap_cons, printDocLine_eq, List.cons_append, List.cons_append, run_cons opening,
        List.append_assoc, List.append_assoc, run_commentChars body, List.singleton_append,
        run_cons (close _ _), List.append_nil, List.reverse_reverse, commentText_commentBody]
      change run ⟨o + 1 + width (commentBody l) + 1, _, _, _, _, _⟩ _ = _
      rw [others]
      simp

theorem blockText_reverse (ls : List (List Char)) (doc : String)
    (lines : Text.lines doc.toList = ls) :
    blockText (ls.map fun l => String.ofList (dropReturns l)).reverse = reread doc := by
  rw [reread, lines]
  cases ls with
  | nil => rfl
  | cons l ls => simp [blockText]

/-- A printed documentation text waits for what it documents. -/
theorem run_printDoc? (d : Option String) (o newlines : Nat) (doc : Option String)
    (items : List Node) :
    ∃ o' newlines' pending, blockText pending = d.bind reread ∧ ∀ rest,
      run ⟨o, .outside newlines, [], doc, items, []⟩ (printDoc? d ++ rest) =
        run ⟨o', .outside newlines', [], doc, items, pending⟩ rest := by
  cases d with
  | none => exact ⟨o, newlines, [], rfl, fun rest => rfl⟩
  | some d =>
      have single : ∀ l ∈ Text.lines d.toList, '\n' ∉ l :=
        fun l member => Text.lineFeed_notMem_of_mem_lines member
      obtain ⟨o', comments⟩ := run_printDocLines single o newlines doc items []
      exact ⟨o', _, _, blockText_reverse _ d rfl, by simpa [printDoc?, printDoc] using comments⟩

/-- An item is read back from its printed form, with the comments that wait as its
documentation. -/
theorem run_printItem {n : Node} (top : TopLevel n) (o newlines : Nat) (doc : Option String)
    (items : List Node) (pending : List String) :
    ∃ (o' : Nat) (m : Node), m.bare = bare { n with doc := blockText pending } ∧ ∀ rest,
      run ⟨o, .outside newlines, [], doc, items, pending⟩ (printNode n ++ rest) =
        run ⟨o', .outside 0, [], doc, m :: items, []⟩ rest := by
  obtain ⟨kind, head, span, d, children⟩ := n
  have inner : kind.isLeaf = false := top.isLeaf_kind
  have shallow := top.shallow
  rw [nesting_of_not_isLeaf inner] at shallow
  have expected : listKind head (([] : List Frame).head?.map (·.kind)) = kind := top.kind.symm
  obtain ⟨o', ms, same, body⟩ := run_listBody (o + 1) o [] doc items pending top.head expected
    (fun n member => readsBack (top.elements n member))
    (by rw [List.length_nil, Nat.zero_add, Nat.add_comm]; exact shallow)
  refine ⟨o' + 1, ⟨kind, head, ⟨o, o' + 1⟩, blockText pending, ms⟩, by simp [same], ?_⟩
  intro rest
  have opening : read ⟨o, .outside newlines, [], doc, items, pending⟩ '(' =
      .ok ⟨o, .opened o, [], doc, items, pending⟩ := rfl
  have wide : '('.utf8Size = 1 := rfl
  rw [printNode_list inner, List.append_assoc, List.cons_append, List.cons_append,
    run_cons opening, wide, List.singleton_append, body, run_closeItem, List.reverse_reverse]

/-- **Items.** Printed items are read back, one after the other. -/
theorem run_printItems {ns : List Node} (tops : ∀ n ∈ ns, TopLevel n) (before : Option Node)
    (o newlines : Nat) (doc : Option String) (items : List Node) :
    ∃ (o' newlines' : Nat) (ms : List Node),
      ms.map bare = (ns.map rereadItem).map bare ∧ ∀ rest,
      run ⟨o, .outside newlines, [], doc, items, []⟩ (printItems before ns ++ rest) =
        run ⟨o', .outside newlines', [], doc, ms.reverse ++ items, []⟩ rest := by
  induction ns generalizing before o newlines items with
  | nil => exact ⟨o, newlines, [], rfl, fun rest => rfl⟩
  | cons n ns ih =>
      -- no comments wait between two items, so an empty line there says nothing
      obtain ⟨o₁, newlines₁, space⟩ : ∃ o₁ newlines₁, ∀ rest,
          run ⟨o, .outside newlines, [], doc, items, []⟩ (gap before n ++ rest) =
            run ⟨o₁, .outside newlines₁, [], doc, items, []⟩ rest := by
        unfold gap
        split
        · exact ⟨o, newlines, fun rest => rfl⟩
        · split
          · exact ⟨o, newlines, fun rest => rfl⟩
          · exact ⟨o + 1, newlines + 1, fun rest => run_lineFeed newlines⟩
      obtain ⟨o₂, newlines₂, pending, block, comments⟩ := run_printDoc? n.doc o₁ newlines₁ doc items
      obtain ⟨o₃, m, same, item⟩ := run_printItem (tops n List.mem_cons_self) o₂ newlines₂ doc
        items pending
      obtain ⟨o₄, newlines₄, ms, sames, others⟩ := ih
        (fun n member => tops n (List.mem_cons_of_mem _ member)) (some n) (o₃ + 1) 1 (m :: items)
      refine ⟨o₄, newlines₄, m :: ms, ?_, ?_⟩
      · rw [block] at same
        rw [List.map_cons, List.map_cons, List.map_cons, sames, same]
        rfl
      · intro rest
        rw [printItems, List.append_assoc, List.append_assoc, List.append_assoc, space, comments,
          item, List.cons_append, run_lineFeed, others]
        simp

/-- The printed documentation of a unit is read back as such. -/
theorem run_printHeader (d : Option String) :
    ∃ o newlines, ∀ rest, run initial (printHeader d ++ rest) =
      run ⟨o, .outside newlines, [], d.bind reread, [], []⟩ rest := by
  cases d with
  | none => exact ⟨0, 0, fun rest => rfl⟩
  | some d =>
      have single : ∀ l ∈ Text.lines d.toList, '\n' ∉ l :=
        fun l member => Text.lineFeed_notMem_of_mem_lines member
      obtain ⟨o, comments⟩ := run_printDocLines single 0 0 none [] []
      by_cases given : Text.lines d.toList = []
      · refine ⟨1, 1, ?_⟩
        intro rest
        have nothing : reread d = none := by rw [reread, given]
        rw [printHeader, printDoc, given, Option.bind_some, nothing]
        rfl
      · refine ⟨o + 1, 2, ?_⟩
        intro rest
        rw [printHeader, printDoc, List.append_assoc, initial, comments, if_neg given,
          List.append_nil, List.singleton_append, run_emptyLine, blockText_reverse _ d rfl,
          Option.bind_some]

end State

/-- **Reading a printed form.** Whatever documentation a unit with readable items has, its printed
form is read as the same items, spans aside, each text of documentation becoming what it is
reread as. -/
theorem read_printChars {u : SourceUnit} (tops : ∀ n ∈ u.items, TopLevel n) :
    ∃ items, read (printChars u) = .ok (u.doc.bind reread, items) ∧
      items.map Node.bare = (u.items.map rereadItem).map Node.bare := by
  obtain ⟨o, newlines, header⟩ := State.run_printHeader u.doc
  obtain ⟨o', newlines', items, same, body⟩ := State.run_printItems tops none o newlines
    (u.doc.bind reread) []
  refine ⟨items, ?_, same⟩
  have whole : State.initial.run (printChars u) =
      .ok ⟨o', .outside newlines', [], u.doc.bind reread, items.reverse, []⟩ := by
    have run := body []
    rw [List.append_nil, List.append_nil] at run
    rw [printChars, header, run, State.run_nil]
  rw [read, whole]
  cases doc : u.doc.bind reread <;> simp [State.finish, State.detach, State.pendingDoc]

end Graft.Sexp
