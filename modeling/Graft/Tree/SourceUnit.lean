import Graft.Path
import Graft.Text.Position
import Graft.Tree.Node

/-!
# Source units

A source unit is the tree of one file together with the text it was read from and the
documentation of the file as a whole. Its root holds the top-level items in source order.

`SourceUnit.additions` compares two states of a unit. Every reference of the later state is kept,
and of the other items those that the earlier state does not account for: each earlier item
accounts for at most one equal later item.
-/

namespace Graft

/-- The text of a unit and the path it was read from. -/
structure SourceText where
  path : Path
  text : String
deriving DecidableEq, Repr

/-- The position at which a span starts. -/
def SourceText.position (source : SourceText) (span : Span) : Position :=
  Position.ofOffset source.text span.start

/-- The tree of one file. -/
structure SourceUnit where
  /-- Documentation of the whole file. -/
  doc : Option String
  /-- The root, whose children are the top-level items. -/
  root : Node
  source : SourceText
deriving Repr

namespace SourceUnit

instance : DecidableEq SourceUnit
  | ⟨d, r, s⟩, ⟨d', r', s'⟩ =>
    decidable_of_iff (d = d' ∧ r = r' ∧ s = s') (by simp)

/-- A unit with the given top-level items. -/
def ofItems (source : SourceText) (doc : Option String) (items : List Node) : SourceUnit :=
  ⟨doc, Node.list .unit "" items, source⟩

def path (u : SourceUnit) : Path := u.source.path

def items (u : SourceUnit) : List Node := u.root.children

/-- The same unit with other top-level items. -/
def withItems (u : SourceUnit) (items : List Node) : SourceUnit :=
  { u with root := { u.root with children := items } }

/-- The top-level references to other units. -/
def references (u : SourceUnit) : List Node :=
  u.items.filter fun n => n.kind = .reference

def hasReferences (u : SourceUnit) : Bool :=
  u.items.any fun n => n.kind = .reference

/-- The paths that the references name, in source order; a reference without children names
none. -/
def referencePaths (u : SourceUnit) : List String :=
  u.references.filterMap fun n => n.children.head?.map (·.value)

/-- The later items that the earlier ones do not account for, references always among them. -/
def unaccounted : (later : List Node) → (earlier : List Node) → List Node
  | [], _ => []
  | n :: later, earlier =>
    if n.kind = .reference then n :: unaccounted later earlier
    else if n ∈ earlier then unaccounted later (earlier.erase n)
    else n :: unaccounted later earlier

/-- What `later` holds beyond `earlier`, as a unit without documentation; nothing when no item
other than a reference was added or changed. -/
def additions (later earlier : SourceUnit) : Option SourceUnit :=
  let added := unaccounted later.items earlier.items
  if added.all fun n => n.kind = .reference then none
  else some (ofItems later.source none added)

@[simp] theorem items_ofItems (source : SourceText) (doc : Option String) (items : List Node) :
    (ofItems source doc items).items = items := rfl

@[simp] theorem items_withItems (u : SourceUnit) (items : List Node) :
    (u.withItems items).items = items := rfl

@[simp] theorem source_withItems (u : SourceUnit) (items : List Node) :
    (u.withItems items).source = u.source := rfl

@[simp] theorem doc_withItems (u : SourceUnit) (items : List Node) :
    (u.withItems items).doc = u.doc := rfl

end SourceUnit

end Graft
