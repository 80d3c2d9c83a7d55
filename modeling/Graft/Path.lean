import Graft.Text.Bytes
import Graft.Text.Pieces

/-!
# Paths

A path is kept as it was written and shown as it was written. What it names is decided by its
components: empty pieces and pieces `.` count for nothing, except that a leading `.` of a relative
path is a component of its own, and `..` is not resolved. So `a//b`, `a/./b` and `a/b` have the
same components, and so have `a/` and `a`, while `./a` differs from `a`.
-/

namespace Graft

/-- A path as it was written. -/
structure Path where
  text : String
deriving DecidableEq, Repr, Inhabited

namespace Path

/-- One component of a path. -/
inductive Component where
  /-- The leading separator of an absolute path. -/
  | root
  /-- The leading `.` of a relative path. -/
  | here
  /-- A component `..`. -/
  | up
  /-- A name. -/
  | name (text : String)
deriving DecidableEq, Repr

def Component.text : Component → String
  | .root => "/"
  | .here => "."
  | .up => ".."
  | .name text => text

/-- The place of a component's sort in the order of components. -/
def Component.rank : Component → Nat
  | .root => 0
  | .here => 1
  | .up => 2
  | .name _ => 3

/-- What the system compares of a component: its sort, and then the bytes of its text. -/
structure Component.Key where
  rank : Nat
  bytes : List UInt8
deriving DecidableEq, Repr

instance : Ord Component.Key :=
  ⟨compareLex (compareOn Component.Key.rank) (compareOn Component.Key.bytes)⟩

def Component.key (c : Component) : Component.Key := ⟨c.rank, Text.bytes c.text⟩

/-- The key of a name with some bytes, which need not be those of a text. -/
def Component.Key.ofName (bytes : List UInt8) : Component.Key := ⟨3, bytes⟩

instance : Ord Component := ⟨compareOn Component.key⟩

/-- Whether a path starts at the root of the file system. -/
def isAbsolute (p : Path) : Bool := p.text.toList.head? = some '/'

/-- The pieces of a path between separators, without the empty piece before a leading one. -/
def pieces (p : Path) : List String :=
  let all := (Text.pieces (· == '/') p.text.toList).map String.ofList
  if p.isAbsolute then all.tail else all

/-- The component that a piece stands for, if it counts. -/
def componentOf (leading : Bool) (piece : String) : Option Component :=
  if piece = "" then none
  else if piece = "." then if leading then some .here else none
  else if piece = ".." then some .up
  else some (.name piece)

/-- The pieces of a path, each with the component it stands for. -/
def parts (p : Path) : List (String × Option Component) :=
  match p.pieces with
  | [] => []
  | first :: rest =>
    (first, componentOf (!p.isAbsolute) first) :: rest.map fun piece => (piece, componentOf false piece)

/-- What a path names, one component after the other. -/
def components (p : Path) : List Component :=
  (if p.isAbsolute then [.root] else []) ++ p.parts.filterMap (·.2)

def same (p q : Path) : Bool := p.components = q.components

/-- The order of paths: component by component. -/
def precedes (p q : Path) : Bool := (compare p.components q.components).isLE

/-- Whether the components of `base` are the first ones of `p`. -/
def startsWith (p base : Path) : Bool := base.components.isPrefixOf p.components

/-- The components of `p` after those of `base`, if `p` starts with `base`. -/
def componentsAfter? (p base : Path) : Option (List Component) :=
  if p.startsWith base then some (p.components.drop base.components.length) else none

/-- The path `q` taken relative to `p`; an absolute `q` stands for itself. -/
def join (p q : Path) : Path :=
  if q.isAbsolute then q
  else if p.text = "" ∨ p.text.toList.getLast? = some '/' then ⟨p.text ++ q.text⟩
  else ⟨p.text ++ "/" ++ q.text⟩

/-- The path without its last component; nothing for a path without one that can be left. -/
def parent? (p : Path) : Option Path :=
  let counted := p.parts.reverse.dropWhile fun part => part.2.isNone
  match counted with
  | [] => none
  | _ :: rest =>
    let kept := (rest.dropWhile fun part => part.2.isNone).reverse.map (·.1)
    some ⟨(if p.isAbsolute then "/" else "") ++ "/".intercalate kept⟩

/-- The last component, if it is a name. -/
def fileName? (p : Path) : Option String :=
  match p.components.getLast? with
  | some (.name text) => some text
  | _ => none

/-- Cut the letters of a file name at its last dot. A name without a dot, and one whose only dot
stands first, has no extension. -/
def cutAt {α : Type} [DecidableEq α] (dot : α) (letters : List α) : List α × Option (List α) :=
  let reversed := letters.reverse
  let extension := (reversed.takeWhile (· ≠ dot)).reverse
  match (reversed.dropWhile (· ≠ dot)).tail with
  | [] => (letters, none)
  | stem => (stem.reverse, some extension)

/-- The stem and the extension of a file name. -/
def cutName (name : String) : String × Option String :=
  match cutAt '.' name.toList with
  | (stem, extension) => (String.ofList stem, extension.map String.ofList)

def stem? (p : Path) : Option String := p.fileName?.map fun name => (cutName name).1

def extension? (p : Path) : Option String := p.fileName?.bind fun name => (cutName name).2

/-- The path with another file name; without one to exchange, the name is added. -/
def withFileName (p : Path) (name : String) : Path :=
  match p.fileName?, p.parent? with
  | some _, some parent => parent.join ⟨name⟩
  | _, _ => p.join ⟨name⟩

/-- The path that names lead to, one after the other, from `base`. -/
def below (base : Path) (names : List String) : Path :=
  names.foldl (fun p name => p.join ⟨name⟩) base

/-- The absolute form of a path: it starts at `cwd`, components `.` and repeated separators are
gone, `..` stays, and so does a separator at the end. Two leading separators, and not more, are
kept as two. -/
def absolute (cwd p : Path) : Path :=
  let start : Path :=
    if p.isAbsolute then
      if p.text.toList.take 2 = ['/', '/'] ∧ p.text.toList.take 3 ≠ ['/', '/', '/'] then ⟨"//"⟩
      else ⟨"/"⟩
    else cwd
  let names := (p.components.filter fun c => c.rank ≥ 2).map (·.text)
  let full := start.below names
  if p.text.toList.getLast? = some '/' then full.join ⟨""⟩ else full

end Path

end Graft
