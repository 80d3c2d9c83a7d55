import Graft.FileSystem.Listing
import Graft.Frontend
import Graft.Relocation
import Graft.Settings.Basic

/-!
# Discovery of units

A survey looks for the units below a root directory. It passes over everything at or below a
skipped path, and takes the files that the frontend handles, except those with a generated name
and those whose path relative to the root is excluded. The units come in the order of their paths,
component by component.

A directory on the way that cannot be listed ends the survey with an error, which names the first
such directory. A file whose stem is not a text has no generated name, and a file whose extension is
not a text is no unit.

`Survey.walk` loads units one by one and hands each to a visitor, together with the state that the
visitor threads through the walk, until the visitor asks to stop.
-/

namespace Graft

/-- A unit that was found. -/
structure UnitEntry where
  path : Path
  /-- The path relative to the root. -/
  relative : Path
deriving DecidableEq, Repr

/-- Read a unit from its file. -/
def FileSystem.loadUnit (fs : FileSystem) (frontend : Frontend) (p : Path) :
    Except Error SourceUnit :=
  match fs.readText p with
  | .error fault => .error (.io p fault)
  | .ok text => frontend.parse p text

/-- What to look for below a root. -/
structure Survey where
  frontend : Frontend
  root : Path
  /-- Which relative paths, given by their bytes, to leave out. -/
  excluded : List UInt8 → Bool
  /-- Paths to pass over, with everything below them. -/
  skipped : List Path
  /-- The end of the stems of generated files. -/
  generatedSuffix : Option String
  /-- The logical path of the root; its name when none is given. -/
  modulePath : Option String

/-- Patterns leave out the paths that one of them matches. -/
instance : Coe (List (List Glob.Token)) (List UInt8 → Bool) := ⟨Settings.matchesBytes⟩

namespace Survey

def ofRoot (frontend : Frontend) (root : Path) : Survey :=
  ⟨frontend, root, fun _ => false, [], none, none⟩

def skip (s : Survey) (p : Path) : Survey := { s with skipped := s.skipped ++ [p] }

/-- Leave out the files whose stems end with a suffix; the empty suffix leaves out none. -/
def skipGenerated (s : Survey) (suffix : String) : Survey :=
  { s with generatedSuffix := if suffix = "" then none else some suffix }

section Discovery

variable {ν : Type} [FileName ν]

def isSkipped (s : Survey) (p : EntryPath ν) : Bool := s.skipped.any fun q => p.same q

/-- Whether a path has a generated name. A stem that is not a text is none of a generated file. -/
def isGenerated (s : Survey) (p : EntryPath ν) : Bool :=
  match s.generatedSuffix, p.stem? with
  | some suffix, some stem => suffix.toList.isSuffixOf stem.toList
  | _, _ => false

/-- Whether a file is one of the units looked for. -/
def accepts (s : Survey) (p : EntryPath ν) : Bool :=
  s.frontend.knows p.extension? && !s.isGenerated p && !s.excluded p.relative.bytes

/-- The units among what a walk yields. The first fault of the walk ends it. -/
def select (s : Survey) : List (WalkStep ν) → Except (WalkFault ν) (List (EntryPath ν))
  | [] => .ok []
  | .error f :: _ => .error f
  | .ok e :: rest =>
    match s.select rest with
    | .error f => .error f
    | .ok units => .ok (if e.isFile && s.accepts e.path then e.path :: units else units)

/-- The units at and below the root, of which a listing or a fault is given, in the order of their
paths. -/
def explore (s : Survey) (root : Except FileFault (Listing ν)) :
    Except (WalkFault ν) (List (EntryPath ν)) :=
  match root with
  | .error fault => .error ⟨⟨s.root, []⟩, fault⟩
  | .ok listing =>
    match s.select (listing.walk (fun p => !s.isSkipped p) ⟨s.root, []⟩) with
    | .error f => .error f
    | .ok units => .ok (units.mergeSort EntryPath.precedes)

end Discovery

/-- The units of a file system below the root. -/
def discover (s : Survey) (fs : FileSystem) : Except Error (List UnitEntry) :=
  match s.explore (fs.listing s.root) with
  | .error f => .error (.io f.path.toPath (.walk f.path.toPath f.fault))
  | .ok units => .ok (units.map fun p => ⟨p.toPath, p.relative.toPath⟩)

def moduleName (s : Survey) : String := s.modulePath.getD (s.root.fileName?.getD "")

/-- The logical path of a directory given relative to the root, and its path. -/
def package (s : Survey) (relative : Path) : String × Path :=
  match relative.components.map (·.text) with
  | [] => (s.moduleName, s.root)
  | segments => (s.moduleName ++ "/" ++ "/".intercalate segments, s.root.join relative)

/-- The packages of the directories that hold units. -/
def packageIndex (s : Survey) (entries : List UnitEntry) : PackageIndex :=
  let dirs := entries.filterMap fun e => e.relative.parent?
  dirs.foldl (fun i dir => let (logical, p) := s.package dir; i.insert logical p) .empty

/-- Load units in order and hand each to a visitor, until the visitor asks to stop. What is loaded
is what the file system of the visitor's state holds at that time. -/
def walk {σ : Type} (s : Survey) (files : σ → FileSystem)
    (visit : σ → UnitEntry → Except Error SourceUnit → σ × Bool) : σ → List UnitEntry → σ
  | state, [] => state
  | state, e :: rest =>
    let (state, stop) := visit state e ((files state).loadUnit s.frontend e.path)
    if stop then state else walk s files visit state rest

end Survey

end Graft
