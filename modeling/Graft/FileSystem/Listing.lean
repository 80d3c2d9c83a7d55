import Graft.FileSystem.Basic
import Graft.FileSystem.Name

/-!
# Listings

A listing is what a walk over a directory tree sees of it: files, things that are neither files nor
directories, directories with what stands in them, and directories that the system refuses to list.

`Listing.walk` yields what stands at a path and below it, entry by entry. A directory comes before
what it holds, and what it holds comes in the order of the names. What the walk is not to keep is
passed over with everything below it. A directory that cannot be listed is an entry like any other,
and the fault comes right after it.

`FileSystem.listing` is the listing of a file system. It holds files and directories only, and of
these the system refuses the ones with too long a path.
-/

namespace Graft

/-- The path of something that a walk has come to: the path at which the walk has started, and the
names that it has followed from there. -/
structure EntryPath (ν : Type) where
  base : Path
  names : List ν
deriving DecidableEq, Repr

namespace EntryPath

variable {ν : Type}

/-- The path of an entry of a directory. -/
def enter (p : EntryPath ν) (name : ν) : EntryPath ν := { p with names := p.names ++ [name] }

/-- The path relative to the one at which the walk has started. -/
def relative (p : EntryPath ν) : EntryPath ν := ⟨⟨""⟩, p.names⟩

/-- The path as a text, if the names are texts. -/
def toPath (p : EntryPath String) : Path := p.base.below p.names

/-- Put one row of bytes behind another as `Path.join` does it with texts. -/
def attach (before after : List UInt8) : List UInt8 :=
  if before = [] ∨ before.getLast? = some '/'.toUInt8 then before ++ after
  else before ++ '/'.toUInt8 :: after

variable [FileName ν]

/-- The path as the system writes it. -/
def bytes (p : EntryPath ν) : List UInt8 :=
  p.names.foldl (fun before name => attach before (FileName.bytes name)) (Text.bytes p.base.text)

def stem? (p : EntryPath ν) : Option String :=
  match p.names.getLast? with
  | some name => FileName.stem? name
  | none => p.base.stem?

def extension? (p : EntryPath ν) : Option String :=
  match p.names.getLast? with
  | some name => FileName.extension? name
  | none => p.base.extension?

/-- What the system compares of a path. -/
def key (p : EntryPath ν) : List Path.Component.Key :=
  p.base.components.map Path.Component.key ++
    p.names.map fun name => .ofName (FileName.bytes name)

/-- Whether a path has the components of another. -/
def same (p : EntryPath ν) (q : Path) : Bool := p.key = q.components.map Path.Component.key

instance : Ord (EntryPath ν) := ⟨compareOn EntryPath.key⟩

/-- The order of paths: component by component. -/
def precedes (p q : EntryPath ν) : Bool := (compare p q).isLE

end EntryPath

/-- What a walk sees at a path. -/
inductive Listing (ν : Type) where
  | file
  /-- Neither a file nor a directory, but a pipe, a socket or a device. -/
  | special
  | dir (entries : List (ν × Listing ν))
  /-- A directory that cannot be listed. -/
  | closed (fault : FileFault)
deriving Repr

/-- Something that a walk has come to. -/
structure WalkEntry (ν : Type) where
  path : EntryPath ν
  isFile : Bool
deriving DecidableEq, Repr

/-- A path that a walk cannot go on from. -/
structure WalkFault (ν : Type) where
  path : EntryPath ν
  fault : FileFault
deriving DecidableEq, Repr

/-- What a walk yields at a time. -/
abbrev WalkStep (ν : Type) := Except (WalkFault ν) (WalkEntry ν)

namespace Listing

variable {ν : Type} [FileName ν]

/-- The order of the parts of a walk: by their names. -/
def byName (a b : ν × List (WalkStep ν)) : Bool :=
  (compare (FileName.bytes a.1) (FileName.bytes b.1)).isLE

/-- Put the parts of a walk together in order. -/
def inOrder (parts : List (ν × List (WalkStep ν))) : List (WalkStep ν) :=
  (parts.mergeSort byName).flatMap (·.2)

mutual

/-- The walk over what stands at a path and below it. -/
def walk (keep : EntryPath ν → Bool) (path : EntryPath ν) : Listing ν → List (WalkStep ν)
  | .file => if keep path then [.ok ⟨path, true⟩] else []
  | .special => if keep path then [.ok ⟨path, false⟩] else []
  | .dir entries =>
    if keep path then .ok ⟨path, false⟩ :: inOrder (walkIn keep path entries) else []
  | .closed fault => if keep path then [.ok ⟨path, false⟩, .error ⟨path, fault⟩] else []

/-- The walks over the entries of a directory, each with the name of the entry. -/
def walkIn (keep : EntryPath ν → Bool) (path : EntryPath ν) :
    List (ν × Listing ν) → List (ν × List (WalkStep ν))
  | [] => []
  | (name, e) :: rest => (name, walk keep (path.enter name) e) :: walkIn keep path rest

end

end Listing

mutual

/-- The listing of what stands at a path. -/
def Entry.listing (path : Path) : Entry → Listing String
  | .file _ => .file
  | .dir entries =>
    match FileSystem.checkText path with
    | .error fault => .closed fault
    | .ok () => .dir (Entry.listings path entries)

/-- The listings of the entries of a directory. -/
def Entry.listings (path : Path) : List (String × Entry) → List (String × Listing String)
  | [] => []
  | (name, e) :: rest => (name, e.listing (path.join ⟨name⟩)) :: Entry.listings path rest

end

/-- What a walk that starts at a path sees. -/
def FileSystem.listing (fs : FileSystem) (p : Path) : Except FileFault (Listing String) :=
  match fs.entry p with
  | .error fault => .error fault
  | .ok e => .ok (e.listing p)

end Graft
