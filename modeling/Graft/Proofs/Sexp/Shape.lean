import Graft.Proofs.Sexp.Comments
import Graft.Proofs.Tree.Bare

/-!
# The trees of the notation

A text can only hold trees of a certain shape. The kind of a list follows from its head and from
the list around it, a head and an identifier are symbols, leaves have no children, and nothing
below the top level has documentation. `TopLevel` is that shape; every item that is read has it,
and an item that has it is read back from its printed form.
-/

namespace Graft.Sexp

/-- A character that can stand in a symbol: no white space, and none that means something else. -/
def OfSymbol (c : Char) : Prop := Text.isBlank c = false ∧ c ∉ ['(', ')', '"', ';']

theorem isSymbolChar_iff {c : Char} : isSymbolChar c = true ↔ OfSymbol c := by
  simp [isSymbolChar, OfSymbol, and_assoc]

instance (c : Char) : Decidable (OfSymbol c) := decidable_of_iff _ isSymbolChar_iff

/-- A text that can be a head or an identifier. -/
def IsSymbol (text : String) : Prop :=
  text.toList ≠ [] ∧ ∀ c ∈ text.toList, OfSymbol c

theorem isSymbol_iff {text : String} :
    IsSymbol text ↔ text.toList ≠ [] ∧ ∀ c ∈ text.toList, isSymbolChar c = true := by
  simp only [IsSymbol, isSymbolChar_iff]

instance (text : String) : Decidable (IsSymbol text) :=
  decidable_of_iff (text.toList ≠ [] ∧ text.toList.all isSymbolChar = true)
    (by simp [isSymbol_iff])

/-- The kind of a list directly inside a list. -/
def innerKind : Kind → Kind
  | .decl => .stmt
  | _ => .expr

/-- The kind of a list outside every list. -/
def topKind (head : String) : Kind :=
  if head = "import" then .reference else .decl

/-- A tree that can stand directly inside a list of the kind `around`. -/
inductive Element : (around : Kind) → Node → Prop
  | ident {around : Kind} {name : String} {span : Span} (symbol : IsSymbol name) :
      Element around ⟨.ident, name, span, none, []⟩
  | literal {around : Kind} {text : String} {span : Span} :
      Element around ⟨.literal, text, span, none, []⟩
  | list {around : Kind} {head : String} {span : Span} {children : List Node}
      (symbol : IsSymbol head) (elements : ∀ c ∈ children, Element (innerKind around) c) :
      Element around ⟨innerKind around, head, span, none, children⟩

/-- A tree that can stand outside every list, with any documentation. A list can open while at most
`maxOpen` lists are open, so one more than that can nest. -/
structure TopLevel (n : Node) : Prop where
  kind : n.kind = topKind n.value
  head : IsSymbol n.value
  elements : ∀ c ∈ n.children, Element n.kind c
  shallow : n.nesting ≤ maxOpen + 1

/-- The documentation texts of a unit. -/
def docs (u : SourceUnit) : List String :=
  u.doc.toList ++ u.items.filterMap (·.doc)

/-- A unit whose printed form says everything about it. -/
structure Printable (u : SourceUnit) : Prop where
  items : ∀ n ∈ u.items, TopLevel n
  docs : ∀ d ∈ docs u, Settled d

/-- An item as it is read back from its printed form. -/
def rereadItem (n : Node) : Node := { n with doc := n.doc.bind reread }

theorem listKind_some (head : String) (around : Kind) :
    listKind head (some around) = innerKind around := by
  cases around <;> rfl

theorem isLeaf_innerKind (around : Kind) : (innerKind around).isLeaf = false := by
  cases around <;> rfl

theorem isLeaf_topKind (head : String) : (topKind head).isLeaf = false := by
  rw [topKind]
  split <;> rfl

/-- No list has the kind of a leaf. -/
theorem isLeaf_listKind (head : String) (around : Option Kind) :
    (listKind head around).isLeaf = false := by
  cases around with
  | none => exact isLeaf_topKind head
  | some around =>
      rw [listKind_some]
      exact isLeaf_innerKind around

theorem TopLevel.isLeaf_kind {n : Node} (top : TopLevel n) : n.kind.isLeaf = false := by
  rw [top.kind]
  exact isLeaf_topKind n.value

/-- Documentation does not change the shape of an item. -/
theorem TopLevel.withDoc {n : Node} (top : TopLevel n) (doc : Option String) :
    TopLevel { n with doc := doc } := by
  refine ⟨top.kind, top.head, top.elements, ?_⟩
  rw [Node.nesting_withDoc]
  exact top.shallow

/-! ### Printing does not look at spans -/

/-- The printed form of a list, from its parts. -/
theorem printNode_list {kind : Kind} (inner : kind.isLeaf = false) (head : String) (span : Span)
    (doc : Option String) (children : List Node) :
    printNode ⟨kind, head, span, doc, children⟩ =
      '(' :: head.toList ++ printChildren children ++ [')'] := by
  cases kind <;> first | rfl | cases inner

mutual

theorem printNode_bare : (n : Node) → printNode n.bare = printNode n
  | ⟨kind, value, span, doc, children⟩ => by
    cases kind <;> simp only [Node.bare, printNode, printChildren_bareAll children]

theorem printChildren_bareAll :
    (ns : List Node) → printChildren (Node.bareAll ns) = printChildren ns
  | [] => rfl
  | n :: ns => by
    rw [Node.bareAll, printChildren, printChildren, printNode_bare n, printChildren_bareAll ns]

end

theorem gap_bare (before : Option Node) (n : Node) :
    gap (before.map Node.bare) n.bare = gap before n := by
  cases before with
  | none => rfl
  | some m => simp [gap]

theorem printItems_bare (before : Option Node) (ns : List Node) :
    printItems (before.map Node.bare) (ns.map Node.bare) = printItems before ns := by
  induction ns generalizing before with
  | nil => rfl
  | cons n ns ih =>
      have next := ih (some n)
      rw [Option.map_some] at next
      rw [List.map_cons, printItems, printItems, gap_bare, printNode_bare, next, Node.doc_bare]

/-- Units with the same documentation and the same items, spans aside, print alike. -/
theorem printChars_congr {u v : SourceUnit} (doc : v.doc = u.doc)
    (items : v.items.map Node.bare = u.items.map Node.bare) : printChars v = printChars u := by
  rw [printChars, printChars, doc, ← printItems_bare none v.items, ← printItems_bare none u.items,
    items]

end Graft.Sexp
