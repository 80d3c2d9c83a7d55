import Graft.Proofs.Sexp.PrintedForm

/-!
# The grammar of the notation

The texts of units are those of a grammar, and the grammar gives each of them its trees:

* a unit is a sequence of layout characters, comments and lists;
* a comment is a semicolon and the rest of its line;
* a list is `(`, layout, a head symbol, then layout, lists, strings and symbols, and `)`;
* a symbol is a longest run of characters of a symbol;
* a string is `"`, characters and escaped characters, and `"`. Of the escaped characters `n` is a
  line feed, `t` a tab, and any other one itself.

The rules for a unit and for a list go from left to right: each takes one part off the front of a
text of which the rest is known. So a symbol is a longest run exactly when no character of a
symbol follows it. The trees have no places and no documentation, since the grammar says nothing
about either. At most 257 lists nest.

`State.followed` and `State.run_list` follow reading through the lists of a text of the grammar,
which are read as the trees of the grammar.
-/

namespace Graft.Sexp

/-- A character of the layout: a space, a tab, a carriage return or a line feed. -/
def OfLayout (c : Char) : Prop := c ∈ [' ', '\t', '\r', '\n']

instance (c : Char) : Decidable (OfLayout c) := inferInstanceAs (Decidable (c ∈ _))

theorem isLayout_iff_ofLayout {c : Char} : Text.isLayout c = true ↔ OfLayout c := by
  simp [Text.isLayout_iff, OfLayout]

/-- A symbol that stands before `rest` is a longest one. -/
def EndsSymbol (rest : List Char) : Prop := ∀ c ∈ rest.head?, ¬ OfSymbol c

theorem endsSymbol_iff {rest : List Char} :
    EndsSymbol rest ↔ ∀ c ∈ rest.head?, isSymbolChar c = false := by
  simp only [EndsSymbol, ← isSymbolChar_iff, Bool.not_eq_true]

theorem endsSymbol_cons {c : Char} {rest : List Char} :
    EndsSymbol (c :: rest) ↔ isSymbolChar c = false := by
  simp [endsSymbol_iff]

/-- The line of a comment that stands before `rest` is complete. -/
def EndsLine (rest : List Char) : Prop := ∀ c ∈ rest.head?, c = '\n'

/-- What follows the opening quotation mark of a string, through the closing one, and the value
of the string. An escaped character stands for itself, unless it is one of the two letters. -/
inductive StringText : List Char → List Char → Prop
  | close : StringText ['"'] []
  | plain {c : Char} {rest value : List Char} (noQuote : c ≠ '"') (noBackslash : c ≠ '\\')
      (more : StringText rest value) : StringText (c :: rest) (c :: value)
  | lineFeed {rest value : List Char} (more : StringText rest value) :
      StringText ('\\' :: 'n' :: rest) ('\n' :: value)
  | tab {rest value : List Char} (more : StringText rest value) :
      StringText ('\\' :: 't' :: rest) ('\t' :: value)
  | other {c : Char} {rest value : List Char} (noFeed : c ≠ 'n') (noTab : c ≠ 't')
      (more : StringText rest value) : StringText ('\\' :: c :: rest) (c :: value)

theorem unescape_of_ne {c : Char} (noFeed : c ≠ 'n') (noTab : c ≠ 't') : unescape c = c := by
  unfold unescape
  split
  · exact absurd rfl noFeed
  · exact absurd rfl noTab
  · rfl

/-- What the reader makes of an escaped character follows one of the rules. -/
theorem StringText.escaped {rest value : List Char} (more : StringText rest value) (c : Char) :
    StringText ('\\' :: c :: rest) (unescape c :: value) := by
  by_cases feed : c = 'n'
  · subst feed
    exact more.lineFeed
  · by_cases tab : c = 't'
    · subst tab
      exact more.tab
    · rw [unescape_of_ne feed tab]
      exact more.other feed tab

/-- What stands between the opening parenthesis of a list and the end of its head. -/
def Opening (text : List Char) (head : String) : Prop :=
  ∃ layout, (∀ c ∈ layout, OfLayout c) ∧ IsSymbol head ∧ text = layout ++ head.toList

/-- What follows the head of a list of the kind `around`, through the closing parenthesis, and
the elements of the list. -/
inductive Body : (around : Kind) → List Char → List Node → Prop
  | close {around : Kind} : Body around [')'] []
  | layout {around : Kind} {c : Char} {rest : List Char} {ns : List Node}
      (layout : OfLayout c) (more : Body around rest ns) : Body around (c :: rest) ns
  | symbol {around : Kind} {name : String} {rest : List Char} {ns : List Node}
      (symbol : IsSymbol name) (longest : EndsSymbol rest) (more : Body around rest ns) :
      Body around (name.toList ++ rest) (.ident name :: ns)
  | string {around : Kind} {text value rest : List Char} {ns : List Node}
      (string : StringText text value) (more : Body around rest ns) :
      Body around ('"' :: text ++ rest) (.literal (String.ofList value) :: ns)
  | list {around : Kind} {head : String} {opening body rest : List Char} {children ns : List Node}
      (opens : Opening opening head) (longest : EndsSymbol body)
      (inner : Body (innerKind around) body children) (more : Body around rest ns) :
      Body around ('(' :: opening ++ body ++ rest) (.list (innerKind around) head children :: ns)

/-- The text of a unit, and its items. -/
inductive UnitText : List Char → List Node → Prop
  | nil : UnitText [] []
  | layout {c : Char} {rest : List Char} {ns : List Node} (layout : OfLayout c)
      (more : UnitText rest ns) : UnitText (c :: rest) ns
  | comment {line rest : List Char} {ns : List Node} (single : '\n' ∉ line)
      (whole : EndsLine rest) (more : UnitText rest ns) : UnitText (';' :: line ++ rest) ns
  | list {head : String} {opening body rest : List Char} {children ns : List Node}
      (opens : Opening opening head) (longest : EndsSymbol body)
      (inner : Body (topKind head) body children) (more : UnitText rest ns) :
      UnitText ('(' :: opening ++ body ++ rest) (.list (topKind head) head children :: ns)

/-- A text of the grammar with its trees, in which at most 257 lists nest. -/
structure Derives (text : List Char) (trees : List Node) : Prop where
  unit : UnitText text trees
  shallow : ∀ n ∈ trees, n.nesting ≤ 257

/-- An item without its place and its documentation. -/
def outline (n : Node) : Node := { n.bare with doc := none }

theorem Body.ne_nil {around : Kind} {text : List Char} {ns : List Node}
    (body : Body around text ns) : text ≠ [] := by
  cases body with
  | symbol symbol => simp [symbol.1]
  | _ => simp

namespace State

variable {o start : Nat} {frames outer : List Frame} {f : Frame} {doc : Option String}
variable {items : List Node} {pending : List String} {c : Char} {rest text : List Char}

/-- Layout says nothing before a head. -/
theorem run_openedLayout {layout : List Char} (all : ∀ c ∈ layout, OfLayout c)
    (o start : Nat) (frames : List Frame) (doc : Option String) (items : List Node)
    (pending : List String) :
    ∃ o', ∀ rest, run ⟨o, .opened start, frames, doc, items, pending⟩ (layout ++ rest) =
      run ⟨o', .opened start, frames, doc, items, pending⟩ rest := by
  induction layout generalizing o with
  | nil => exact ⟨o, fun rest => rfl⟩
  | cons c layout ih =>
      have skipped : read ⟨o, .opened start, frames, doc, items, pending⟩ c =
          .ok ⟨o, .opened start, frames, doc, items, pending⟩ := by
        simp [read, isLayout_iff_ofLayout.mpr (all c List.mem_cons_self)]
      obtain ⟨o', others⟩ := ih (fun c member => all c (List.mem_cons_of_mem _ member))
        (o + c.utf8Size)
      exact ⟨o', fun rest => by rw [List.cons_append, run_cons skipped, others]⟩

/-- The head of a list and the layout before it, up to a character that ends the head. -/
theorem run_opening {opening : List Char} {head : String} (opens : Opening opening head)
    (o start : Nat) (frames : List Frame) (doc : Option String) (items : List Node)
    (pending : List String) :
    ∃ o', ∀ c rest, isSymbolChar c = false →
      run ⟨o, .opened start, frames, doc, items, pending⟩ (opening ++ c :: rest) =
        run ⟨o', .inside, ⟨start, listKind head (frames.head?.map (·.kind)), head, []⟩ :: frames,
          doc, items, pending⟩ (c :: rest) := by
  obtain ⟨layout, all, symbol, rfl⟩ := opens
  obtain ⟨given, chars⟩ := isSymbol_iff.mp symbol
  cases split : head.toList with
  | nil => exact absurd split given
  | cons d ds =>
      rw [split] at chars
      obtain ⟨o₁, skipped⟩ := run_openedLayout all o start frames doc items pending
      have first : read ⟨o₁, .opened start, frames, doc, items, pending⟩ d =
          .ok ⟨o₁, .head start [d], frames, doc, items, pending⟩ := by
        have symbol := chars d List.mem_cons_self
        simp [read, symbol, isLayout_of_symbolChar symbol]
      have whole : String.ofList (ds.reverse ++ [d]).reverse = head := by
        apply String.toList_inj.mp
        simp [split]
      refine ⟨o₁ + d.utf8Size + width ds, ?_⟩
      intro c rest stop
      rw [List.append_assoc, skipped, List.cons_append, run_cons first,
        run_headChars fun e member => chars e (List.mem_cons_of_mem _ member),
        run_closeHead _ stop, whole]

theorem run_backslash (o start : Nat) (before : List Char) (f : Frame) (outer : List Frame)
    (doc : Option String) (items : List Node) (pending : List String) (c : Char)
    (rest : List Char) :
    run ⟨o, .string start before, f :: outer, doc, items, pending⟩ ('\\' :: c :: rest) =
      run ⟨o + 1 + c.utf8Size, .string start (unescape c :: before), f :: outer, doc, items,
        pending⟩ rest := by
  have backslash : read ⟨o, .string start before, f :: outer, doc, items, pending⟩ '\\' =
      .ok ⟨o, .escape start before, f :: outer, doc, items, pending⟩ := rfl
  have decoded : read ⟨o + 1, .escape start before, f :: outer, doc, items, pending⟩ c =
      .ok ⟨o + 1, .string start (unescape c :: before), f :: outer, doc, items, pending⟩ := rfl
  have wide : '\\'.utf8Size = 1 := rfl
  rw [run_cons backslash, wide, run_cons decoded]

/-- The rest of a string, from any place in it. -/
theorem run_stringText {text value : List Char} (string : StringText text value) (o start : Nat)
    (before : List Char) (f : Frame) (outer : List Frame) (doc : Option String)
    (items : List Node) (pending : List String) :
    ∃ o', ∀ rest, run ⟨o, .string start before, f :: outer, doc, items, pending⟩ (text ++ rest) =
      run ⟨o', .inside, { f with children :=
        ⟨.literal, String.ofList (before.reverse ++ value), ⟨start, o'⟩, none, []⟩ ::
          f.children } :: outer, doc, items, pending⟩ rest := by
  induction string generalizing o before with
  | close =>
      refine ⟨o + 1, ?_⟩
      intro rest
      rw [List.append_nil]
      exact run_closeString before
  | @plain c rest value noQuote noBackslash _ ih =>
      obtain ⟨o', others⟩ := ih (o + c.utf8Size) (c :: before)
      refine ⟨o', ?_⟩
      intro rest
      have kept : read ⟨o, .string start before, f :: outer, doc, items, pending⟩ c =
          .ok ⟨o, .string start (c :: before), f :: outer, doc, items, pending⟩ := by
        simp [read, noQuote, noBackslash]
      rw [List.cons_append, run_cons kept, others]
      simp
  | lineFeed _ ih =>
      obtain ⟨o', others⟩ := ih (o + 1 + 'n'.utf8Size) ('\n' :: before)
      refine ⟨o', fun rest => ?_⟩
      rw [List.cons_append, List.cons_append, run_backslash, unescape, others]
      simp
  | tab _ ih =>
      obtain ⟨o', others⟩ := ih (o + 1 + 't'.utf8Size) ('\t' :: before)
      refine ⟨o', fun rest => ?_⟩
      rw [List.cons_append, List.cons_append, run_backslash, unescape, others]
      simp
  | @other c rest value noFeed noTab _ ih =>
      obtain ⟨o', others⟩ := ih (o + 1 + c.utf8Size) (c :: before)
      refine ⟨o', fun rest => ?_⟩
      rw [List.cons_append, List.cons_append, run_backslash, unescape_of_ne noFeed noTab, others]
      simp

/-! ### The elements of a list -/

/-- Reading follows the elements of a list up to the parenthesis that closes it, when there is
room for them. -/
def Followed (around : Kind) (text : List Char) (ns : List Node) : Prop :=
  ∀ o f outer doc items pending, f.kind = around →
    (∀ n ∈ ns, outer.length + 1 + n.nesting ≤ maxOpen + 1) →
    ∃ (o' : Nat) (ms : List Node), ms.map Node.bare = ns ∧ ∀ rest,
      run ⟨o, .inside, f :: outer, doc, items, pending⟩ (text ++ rest) =
        run ⟨o', .inside, { f with children := ms.reverse ++ f.children } :: outer, doc, items,
          pending⟩ (')' :: rest)

/-- A first element, followed by others. -/
theorem Followed.cons {around : Kind} {first : List Char} {n : Node} {ns : List Node}
    (more : Followed around text ns)
    (element : ∀ o f outer doc items pending, f.kind = around →
      outer.length + 1 + n.nesting ≤ maxOpen + 1 → ∃ o' m, m.bare = n ∧ ∀ rest,
        run ⟨o, .inside, f :: outer, doc, items, pending⟩ (first ++ (text ++ rest)) =
          run ⟨o', .inside, { f with children := m :: f.children } :: outer, doc, items, pending⟩
            (text ++ rest)) :
    Followed around (first ++ text) (n :: ns) := by
  intro o f outer doc items pending kind room
  obtain ⟨o₁, m, same, here⟩ := element o f outer doc items pending kind
    (room n List.mem_cons_self)
  obtain ⟨o₂, ms, sames, others⟩ := more o₁ { f with children := m :: f.children } outer doc items
    pending kind fun n member => room n (List.mem_cons_of_mem _ member)
  refine ⟨o₂, m :: ms, by rw [List.map_cons, same, sames], ?_⟩
  intro rest
  rw [List.append_assoc, here, others]
  simp

theorem followed_layout {around : Kind} {ns : List Node} (layout : Text.isLayout c = true)
    (more : Followed around text ns) : Followed around (c :: text) ns := by
  intro o f outer doc items pending kind room
  obtain ⟨o', ms, sames, others⟩ := more (o + c.utf8Size) f outer doc items pending kind room
  refine ⟨o', ms, sames, ?_⟩
  intro rest
  have skipped : read ⟨o, .inside, f :: outer, doc, items, pending⟩ c =
      .ok ⟨o, .inside, f :: outer, doc, items, pending⟩ := by
    simp [read, stepInside, layout]
  rw [List.cons_append, run_cons skipped, others]

theorem followed_symbol {around : Kind} {name : String} {ns : List Node} (symbol : IsSymbol name)
    (longest : EndsSymbol text) (given : text ≠ []) (more : Followed around text ns) :
    Followed around (name.toList ++ text) (.ident name :: ns) := by
  apply more.cons
  intro o f outer doc items pending kind room
  have reads : ReadsBack around (.ident name) := readsBack_ident symbol
  obtain ⟨o', m, same, read⟩ := reads o f outer doc items pending kind room
  refine ⟨o', m, same, ?_⟩
  intro rest
  cases text with
  | nil => exact absurd rfl given
  | cons c text => exact read c (text ++ rest) (endsSymbol_iff.mp longest c rfl)

theorem followed_string {around : Kind} {string value : List Char} {ns : List Node}
    (whole : StringText string value) (more : Followed around text ns) :
    Followed around ('"' :: string ++ text) (.literal (String.ofList value) :: ns) := by
  apply more.cons
  intro o f outer doc items pending _ _
  obtain ⟨o', others⟩ := run_stringText whole (o + 1) o [] f outer doc items pending
  refine ⟨o', ⟨.literal, String.ofList value, ⟨o, o'⟩, none, []⟩, by simp [Node.literal], ?_⟩
  intro rest
  have quote : read ⟨o, .inside, f :: outer, doc, items, pending⟩ '"' =
      .ok ⟨o, .string o [], f :: outer, doc, items, pending⟩ := rfl
  have wide : '"'.utf8Size = 1 := rfl
  rw [List.cons_append, run_cons quote, wide, others]
  rfl

/-- The list that a parenthesis opens, up to the parenthesis that closes it. -/
theorem run_list {kind : Kind} {head : String} {opening body : List Char} {children : List Node}
    (opens : Opening opening head) (longest : EndsSymbol body) (given : body ≠ [])
    (inner : Followed kind body children) (o start : Nat) (frames : List Frame)
    (expected : listKind head (frames.head?.map (·.kind)) = kind) (doc : Option String)
    (items : List Node) (pending : List String)
    (room : ∀ n ∈ children, frames.length + 1 + n.nesting ≤ maxOpen + 1) :
    ∃ (o' : Nat) (ms : List Node), ms.map Node.bare = children ∧ ∀ rest,
      run ⟨o, .opened start, frames, doc, items, pending⟩ (opening ++ body ++ rest) =
        run ⟨o', .inside, ⟨start, kind, head, ms.reverse⟩ :: frames, doc, items, pending⟩
          (')' :: rest) := by
  obtain ⟨o₁, headed⟩ := run_opening opens o start frames doc items pending
  obtain ⟨o₂, ms, same, closed⟩ := inner o₁ ⟨start, kind, head, []⟩ frames doc items pending rfl
    room
  refine ⟨o₂, ms, same, ?_⟩
  intro rest
  cases body with
  | nil => exact absurd rfl given
  | cons c body =>
      rw [List.append_assoc, List.cons_append, headed c _ (endsSymbol_iff.mp longest c rfl),
        expected, ← List.cons_append, closed]
      simp

/-- The nesting of a list leaves room for its elements. -/
theorem room_of_nesting {kind : Kind} (inner : kind.isLeaf = false) {head : String}
    {children : List Node} {depth : Nat}
    (room : depth + (Node.list kind head children).nesting ≤ maxOpen + 1) :
    depth ≤ maxOpen ∧ ∀ n ∈ children, depth + 1 + n.nesting ≤ maxOpen + 1 := by
  rw [Node.list, Node.nesting_of_not_isLeaf inner] at room
  refine ⟨by omega, ?_⟩
  intro n member
  have here : n.nesting ≤ Node.nestingAll children :=
    Node.nestingAll_le_iff.mp (Nat.le_refl _) n member
  simp only at room
  omega

theorem followed_list {around : Kind} {head : String} {opening body : List Char}
    {children ns : List Node} (opens : Opening opening head) (longest : EndsSymbol body)
    (given : body ≠ []) (inner : Followed (innerKind around) body children)
    (more : Followed around text ns) :
    Followed around ('(' :: opening ++ body ++ text)
      (.list (innerKind around) head children :: ns) := by
  apply more.cons
  intro o f outer doc items pending kind room
  obtain ⟨shallow, deeper⟩ := room_of_nesting (isLeaf_innerKind around) room
  have expected : listKind head ((f :: outer).head?.map (·.kind)) = innerKind around := by
    rw [List.head?_cons, Option.map_some, listKind_some, kind]
  obtain ⟨o', ms, same, closed⟩ := run_list opens longest given inner (o + 1) o (f :: outer)
    expected doc items pending deeper
  refine ⟨o' + 1, ⟨innerKind around, head, ⟨o, o' + 1⟩, none, ms⟩, ?_, ?_⟩
  · rw [Node.bare_mk, same]
    rfl
  · intro rest
    have fits : (f :: outer).length ≤ maxOpen := shallow
    rw [List.cons_append, List.cons_append, run_openList fits, closed, run_closeList,
      List.reverse_reverse]

/-- **Elements of the grammar.** Reading follows the elements of every list. -/
theorem followed {around : Kind} {ns : List Node} (body : Body around text ns) :
    Followed around text ns := by
  induction body with
  | close =>
      intro o f outer doc items pending _ _
      exact ⟨o, [], rfl, fun rest => rfl⟩
  | layout layout _ ih => exact followed_layout (isLayout_iff_ofLayout.mpr layout) ih
  | symbol symbol longest more ih => exact followed_symbol symbol longest more.ne_nil ih
  | string string _ ih => exact followed_string string ih
  | list opens longest inner _ ihInner ih =>
      exact followed_list opens longest inner.ne_nil ihInner ih

end State

end Graft.Sexp
