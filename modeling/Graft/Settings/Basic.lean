import Graft.Error
import Graft.FileSystem.Basic
import Graft.Glob.Match
import Graft.Toml.Document

/-!
# Settings

The settings of a run, and how they are read from the settings file of a directory of units. A
setting that the file does not mention has its standard value, and keys that are no settings are
passed over.
-/

namespace Graft

/-- The settings of a run. -/
structure Settings where
  /-- The path under which other units refer to the root directory; its name when none is given. -/
  modulePath : Option String
  /-- Keep the units as they are and emit only what the handlers added. -/
  append : Bool
  /-- What is added to the stem of a unit's file name when additions go to a file beside it. -/
  genSuffix : String
  /-- End a run over a directory at the first unit that fails. -/
  failFast : Bool
  /-- Emit nothing for units that no handler was applied to. -/
  skipUnchanged : Bool
  /-- Patterns for the units to leave out, by their paths relative to the root. -/
  exclude : List String
deriving DecidableEq, Repr

namespace Settings

def standard : Settings := ⟨none, false, "_gen", false, false, []⟩

def fileName : String := "remacro.toml"

def field? (t : Toml.Table) (key : String) : Option Toml.Item := t.fields.lookup key

/-- A setting that is a flag. -/
def flag (t : Toml.Table) (key : String) (standard : Bool) : Except String Bool :=
  match field? t key with
  | none => .ok standard
  | some (.value (.flag b)) => .ok b
  | some _ => .error key

/-- A setting that is a text. -/
def text (t : Toml.Table) (key : String) : Except String (Option String) :=
  match field? t key with
  | none => .ok none
  | some (.value (.text s)) => .ok (some s)
  | some _ => .error key

/-- The texts of a list of values, if they are texts. -/
def textsOf : List Toml.Value → Option (List String)
  | [] => some []
  | .text s :: rest => (textsOf rest).map (s :: ·)
  | _ :: _ => none

/-- A setting that is a list of texts. -/
def texts (t : Toml.Table) (key : String) : Except String (List String) :=
  match field? t key with
  | none => .ok []
  | some (.value (.list vs)) =>
    match textsOf vs with
    | some ss => .ok ss
    | none => .error key
  | some _ => .error key

/-- The settings in a table; the key of a setting that has a value of the wrong type, if there is
one. -/
def ofTable (t : Toml.Table) : Except String Settings := do
  return {
    modulePath := ← text t "module_path"
    append := ← flag t "append" standard.append
    genSuffix := (← text t "gen_suffix").getD standard.genSuffix
    failFast := ← flag t "fail_fast" standard.failFast
    skipUnchanged := ← flag t "skip_unchanged" standard.skipUnchanged
    exclude := ← texts t "exclude" }

/-- The settings in a file. -/
def load (fs : FileSystem) (file : Path) : Except Error Settings :=
  match fs.readText file with
  | .error fault => .error (.settings (.unreadable file fault))
  | .ok content =>
    match Toml.parse content with
    | .error fault => .error (.settings (.malformed file fault))
    | .ok t =>
      match ofTable t with
      | .error key => .error (.settings (.wrongType file key))
      | .ok settings => .ok settings

/-- The settings of a directory of units: those in its settings file, if it has one. -/
def loadFrom (fs : FileSystem) (dir : Path) : Except Error Settings :=
  let file := dir.join ⟨fileName⟩
  if fs.isFile file then load fs file else .ok standard

/-- Parse patterns, up to the first text that is none. -/
def parsePatterns : List String → Except Error (List (List Glob.Token))
  | [] => .ok []
  | pattern :: rest =>
    match Glob.parse pattern with
    | .error fault => .error (.settings (.invalidPattern pattern fault))
    | .ok tokens => (parsePatterns rest).map (tokens :: ·)

/-- Read patterns that are to be compared with paths. -/
def readPatterns (texts : List String) : Except Error (List (List Glob.Token)) :=
  match parsePatterns texts with
  | .error e => .error e
  | .ok patterns =>
    match Glob.unusable? patterns with
    | some reason => .error (.settings (.unusablePatterns reason))
    | none => .ok patterns

/-- Whether a path matches one of some patterns; what counts are its bytes. -/
def matchesBytes (patterns : List (List Glob.Token)) (path : List UInt8) : Bool :=
  patterns.any fun tokens => Glob.isMatch tokens path

def matchesAny (patterns : List (List Glob.Token)) (p : Path) : Bool :=
  matchesBytes patterns (Text.bytes p.text)

def excluded (s : Settings) : Except Error (List (List Glob.Token)) := readPatterns s.exclude

end Settings

end Graft
