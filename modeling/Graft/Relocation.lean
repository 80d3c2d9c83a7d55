import Graft.Error

/-!
# Relocation of references

When the units of one directory are written to another, references to packages of the first
directory have to name the packages of the second. A package is known by a logical path: the
module path of the root, followed by its directory relative to the root. Relocating it exchanges
the last segment of the module path for the name of the output directory and keeps the rest.

References to packages that the index does not know, or that lie outside the source root, stay. So
do references that already are the result of a relocation, so relocating a unit twice is the same
as relocating it once.
-/

namespace Graft

/-- Logical paths of packages and their directories, in ascending order of logical paths. -/
structure PackageIndex where
  packages : List (String × Path)
deriving DecidableEq, Repr

namespace PackageIndex

def empty : PackageIndex := ⟨[]⟩

/-- Set the directory of a logical path in an ascending list. -/
def insertIn (logical : String) (dir : Path) : List (String × Path) → List (String × Path)
  | [] => [(logical, dir)]
  | (l, d) :: rest =>
    if logical < l then (logical, dir) :: (l, d) :: rest
    else if logical = l then (logical, dir) :: rest
    else (l, d) :: insertIn logical dir rest

/-- Set the directory of a logical path. -/
def insert (i : PackageIndex) (logical : String) (dir : Path) : PackageIndex :=
  ⟨insertIn logical dir i.packages⟩

def get? (i : PackageIndex) (logical : String) : Option Path := i.packages.lookup logical

def size (i : PackageIndex) : Nat := i.packages.length

end PackageIndex

/-- Why a package has no place in the output directory. -/
inductive RelocationFault where
  /-- The output directory has no name. -/
  | noDirectoryName (output : Path)
  /-- The logical path does not end with the directory of the package. -/
  | otherDirectory (relative : String)
deriving DecidableEq, Repr

def RelocationFault.message : RelocationFault → String
  | .noDirectoryName output => "output root " ++ output.text ++ " has no directory name"
  | .otherDirectory relative => "path does not end with " ++ relative

/-- What becomes of a reference. -/
inductive Relocation where
  | moved (logical : String)
  | invalid (fault : RelocationFault)
deriving DecidableEq, Repr

namespace Relocation

/-- Exchange what follows the last separator of a logical path, or all of it. -/
def replaceLastSegment (logical : List Char) (name : String) : List Char :=
  (logical.reverse.dropWhile (· ≠ '/')).reverse ++ name.toList

/-- A text without the end `tail`, if it ends so. -/
def withoutEnd? (tail text : List Char) : Option (List Char) :=
  if tail.isSuffixOf text then some (text.take (text.length - tail.length)) else none

/-- Where a package goes whose directory relative to the source root is `relative`. -/
def ofPackage (logical relative outName : String) : Relocation :=
  if relative = "" then .moved (String.ofList (replaceLastSegment logical.toList outName))
  else
    match withoutEnd? ('/' :: relative.toList) logical.toList with
    | some base =>
      .moved (String.ofList (replaceLastSegment base outName ++ '/' :: relative.toList))
    | none => .invalid (.otherDirectory relative)

/-- The logical path that a relocation leads to. -/
def target? : Relocation → Option String
  | .moved logical => some logical
  | .invalid _ => none

end Relocation

/-- The relocations of the packages of one source root. -/
structure Relocations where
  table : List (String × Relocation)
deriving DecidableEq, Repr

namespace Relocations

/-- The relocation of one package; none for a package outside the source root. -/
def ofEntry (sourceRoot outputRoot : Path) (e : String × Path) : Option (String × Relocation) :=
  (e.2.componentsAfter? sourceRoot).map fun components =>
    let relative := "/".intercalate (components.map (·.text))
    match outputRoot.fileName? with
    | some name => (e.1, Relocation.ofPackage e.1 relative name)
    | none => (e.1, .invalid (.noDirectoryName outputRoot))

/-- The relocations of the packages of an index. -/
def ofIndex (index : PackageIndex) (sourceRoot outputRoot : Path) : Relocations :=
  ⟨index.packages.filterMap (ofEntry sourceRoot outputRoot)⟩

def targets (r : Relocations) : List String := r.table.filterMap fun e => e.2.target?

/-- What happens to one reference. -/
inductive Effect where
  | keep
  | move (logical : String)
  | refuse (fault : RelocationFault)
deriving DecidableEq, Repr

/-- What happens to the reference `logical`. -/
def effect (r : Relocations) (logical : String) : Effect :=
  if r.targets.contains logical then .keep
  else match r.table.lookup logical with
    | none => .keep
    | some (.moved target) => .move target
    | some (.invalid fault) => .refuse fault

/-- The logical path that a top-level item refers to. -/
def logicalOf? (n : Node) : Option String :=
  if n.kind = .reference then n.children.head?.map (·.value) else none

/-- A reference that refers to another logical path. -/
def redirect (n : Node) (logical : String) : Node :=
  { n with children := n.children.modify 0 fun c => { c with value := logical } }

/-- What relocating the references of a unit leaves behind. -/
structure Relocated where
  items : List Node
  changed : Nat
  /-- The reference that could not be relocated, if there was one. -/
  refused : Option (String × RelocationFault)
deriving DecidableEq, Repr

/-- Put an item in front of what relocating the items after it leaves behind. -/
def Relocated.cons (n : Node) (changed : Nat) (r : Relocated) : Relocated :=
  { r with items := n :: r.items, changed := changed + r.changed }

/-- Relocate the references among top-level items, up to the first that is refused. -/
def relocateItems (r : Relocations) : List Node → Relocated
  | [] => ⟨[], 0, none⟩
  | n :: rest =>
    match logicalOf? n with
    | none => (relocateItems r rest).cons n 0
    | some logical =>
      match r.effect logical with
      | .keep => (relocateItems r rest).cons n 0
      | .move target => (relocateItems r rest).cons (redirect n target) 1
      | .refuse fault => ⟨n :: rest, 0, some (logical, fault)⟩

/-- Relocate the references of a unit. The unit is the one reached, also when a reference is
refused. -/
def apply (r : Relocations) (u : SourceUnit) : Except Error Nat × SourceUnit :=
  let done := r.relocateItems u.items
  let after := u.withItems done.items
  match done.refused with
  | none => (.ok done.changed, after)
  | some (logical, fault) => (.error (.relocation u.path logical fault.message), after)

end Relocations

end Graft
