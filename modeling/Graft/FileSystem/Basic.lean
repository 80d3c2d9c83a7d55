import Graft.FileSystem.Entry
import Graft.FileSystem.Fault

/-!
# A file system

A file system is a tree of entries and the place in it at which relative paths start. There are no
links, so a path leads to at most one place: the list of names from the root. Resolving a path
follows its pieces one by one. A piece `.` or an empty piece stays where it is and `..` goes up,
but each of them, like a name, can only be followed from a directory.

Writing a file needs its directory: `createDirs` makes it, and makes whatever is missing on the
way. A path that ends with a separator can name a directory only, so no file is written there.
-/

namespace Graft

/-- A tree of entries and the place at which relative paths start. -/
structure FileSystem where
  root : Entry
  /-- The names that lead from the root to the current directory. -/
  cwd : List String
deriving Repr

namespace FileSystem

def maxName : Nat := 255

def maxPath : Nat := 4095

def cwdPath (fs : FileSystem) : Path := ⟨"/" ++ "/".intercalate fs.cwd⟩

/-- The file system with the entry at a place set. -/
def put (fs : FileSystem) (place : List String) (e : Entry) : FileSystem :=
  { fs with root := fs.root.put place e }

/-- The entries of the directory at a place. -/
def dirAt (fs : FileSystem) (place : List String) : Except FileFault (List (String × Entry)) :=
  match fs.root.at? place with
  | some (.dir entries) => .ok entries
  | some (.file _) => .error .notDirectory
  | none => .error .notFound

/-- Follow one piece of a path from a place. -/
def follow (fs : FileSystem) (place : List String) (piece : String) :
    Except FileFault (List String) :=
  match fs.dirAt place with
  | .error fault => .error fault
  | .ok entries =>
    if piece = "" ∨ piece = "." then .ok place
    else if piece = ".." then .ok place.dropLast
    else if piece.utf8ByteSize > maxName then .error .nameTooLong
    else if (entries.lookup piece).isSome then .ok (place ++ [piece])
    else .error .notFound

/-- Follow the pieces of a path from a place. -/
def followAll (fs : FileSystem) : List String → List String → Except FileFault (List String)
  | place, [] => .ok place
  | place, piece :: pieces =>
    match fs.follow place piece with
    | .error fault => .error fault
    | .ok place => fs.followAll place pieces

/-- The place at which a path starts. -/
def start (fs : FileSystem) (p : Path) : List String :=
  if p.isAbsolute then [] else fs.cwd

/-- Refuse the texts that name no place at all. -/
def checkText (p : Path) : Except FileFault Unit :=
  if '\x00' ∈ p.text.toList then .error .nulInName
  else if p.text = "" then .error .notFound
  else if p.text.utf8ByteSize > maxPath then .error .nameTooLong
  else .ok ()

/-- The place that a path leads to. -/
def resolve (fs : FileSystem) (p : Path) : Except FileFault (List String) := do
  checkText p
  fs.followAll (fs.start p) p.pieces

/-- The entry that a path leads to. -/
def entry (fs : FileSystem) (p : Path) : Except FileFault Entry :=
  match fs.resolve p with
  | .error fault => .error fault
  | .ok place =>
    match fs.root.at? place with
    | some e => .ok e
    | none => .error .notFound

/-- Whether a path leads to a directory. -/
def isDir (fs : FileSystem) (p : Path) : Bool :=
  match fs.entry p with
  | .ok (.dir _) => true
  | _ => false

/-- Whether a path leads to a file. -/
def isFile (fs : FileSystem) (p : Path) : Bool :=
  match fs.entry p with
  | .ok (.file _) => true
  | _ => false

def readText (fs : FileSystem) (p : Path) : Except FileFault String :=
  match fs.entry p with
  | .error fault => .error fault
  | .ok (.dir _) => .error .isDirectory
  | .ok (.file (.raw _)) => .error .notText
  | .ok (.file (.text text)) => .ok text

/-- Whether two paths lead to one place. -/
def samePlace (fs : FileSystem) (p q : Path) : Bool :=
  match fs.resolve p, fs.resolve q with
  | .ok a, .ok b => a = b
  | _, _ => false

/-- Where something new can stand: its directory, its name, and whether separators follow the
name. -/
structure Slot where
  dir : List String
  entries : List (String × Entry)
  name : String
  trailing : Bool

/-- The slot that a path names. There is none for the root of the file system. -/
def slot (fs : FileSystem) (p : Path) : Except FileFault (Option Slot) := do
  checkText p
  let trimmed := (p.pieces.reverse.dropWhile (· = "")).reverse
  match trimmed.getLast? with
  | none => return none
  | some name =>
    let dir ← fs.followAll (fs.start p) trimmed.dropLast
    let entries ← fs.dirAt dir
    return some ⟨dir, entries, name, trimmed.length < p.pieces.length⟩

/-- Open a file for writing: its place, and its content if it exists. -/
def openFile (fs : FileSystem) (p : Path) :
    Except FileFault (List String × Option Content) := do
  match ← fs.slot p with
  | none => throw .isDirectory
  | some slot =>
    if slot.name = "." ∨ slot.name = ".." then throw .isDirectory
    if slot.trailing then throw .isDirectory
    if slot.name.utf8ByteSize > maxName then throw .nameTooLong
    match slot.entries.lookup slot.name with
    | some (.dir _) => throw .isDirectory
    | some (.file content) => return (slot.dir ++ [slot.name], some content)
    | none => return (slot.dir ++ [slot.name], none)

/-- Write a text to a file in place of what it held. -/
def write (fs : FileSystem) (p : Path) (text : String) : Except FileFault FileSystem := do
  let (place, _) ← fs.openFile p
  return fs.put place (.file (.text text))

/-- Write a text to the end of a file. -/
def append (fs : FileSystem) (p : Path) (text : String) : Except FileFault FileSystem := do
  let (place, content) ← fs.openFile p
  return fs.put place (.file ((content.getD (.text "")).append text))

/-- Make one directory. -/
def makeDir (fs : FileSystem) (p : Path) : Except FileFault FileSystem := do
  match ← fs.slot p with
  | none => throw .alreadyExists
  | some slot =>
    if slot.name = "." ∨ slot.name = ".." then throw .alreadyExists
    if slot.name.utf8ByteSize > maxName then throw .nameTooLong
    if (slot.entries.lookup slot.name).isSome then throw .alreadyExists
    return fs.put (slot.dir ++ [slot.name]) .emptyDir

/-- Make a directory and every directory that is missing on the way, as long as `levels` lasts;
the state is the one reached, also when a step fails. -/
def createDirsWithin : (levels : Nat) → FileSystem → Path → Except FileFault Unit × FileSystem
  | 0, fs, _ => (.error .notFound, fs)
  | levels + 1, fs, p =>
    if p.text = "" then (.ok (), fs)
    else match fs.makeDir p with
      | .ok fs => (.ok (), fs)
      | .error .notFound =>
        match p.parent? with
        | none => (.error (.other "failed to create whole tree"), fs)
        | some parent =>
          match createDirsWithin levels fs parent with
          | (.error fault, fs) => (.error fault, fs)
          | (.ok (), fs) =>
            match fs.makeDir p with
            | .ok fs => (.ok (), fs)
            | .error fault => if fs.isDir p then (.ok (), fs) else (.error fault, fs)
      | .error fault => if fs.isDir p then (.ok (), fs) else (.error fault, fs)

/-- Make a directory and every directory that is missing on the way. Each step leaves out one
component, so the pieces of the path bound the number of steps. -/
def createDirs (fs : FileSystem) (p : Path) : Except FileFault Unit × FileSystem :=
  createDirsWithin (p.pieces.length + 2) fs p

/-- Make the directory in which a path stands. -/
def createParent (fs : FileSystem) (p : Path) : Except FileFault Unit × FileSystem :=
  match p.parent? with
  | some parent => fs.createDirs parent
  | none => (.ok (), fs)

end FileSystem

end Graft
