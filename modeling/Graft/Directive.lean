import Graft.Text.Blank
import Graft.Text.Lines
import Graft.Text.Pieces

/-!
# Directives

A directive is a line of a documentation text: blanks, the mark `macro:`, a name, and then either
the end of the line or a blank and the arguments, which blanks and commas separate. Every other
line is ordinary text and is passed over.

`Directives.parse` groups the directive lines of a text by name. The groups stand in the order in
which their names first appear, and the arguments of a group in the order of the lines.
-/

namespace Graft

/-- A directive name and its arguments. -/
structure Directive where
  name : String
  args : List String
deriving DecidableEq, Repr

namespace Directive

def mark : List Char := "macro:".toList

def isNameStart (c : Char) : Bool := c.isAlpha || c == '_'

def isNameChar (c : Char) : Bool := c.isAlphanum || c == '_' || c == '-'

def isSeparator (c : Char) : Bool := c == ',' || Text.isBlank c

/-- The text after the mark, on a line that has the mark after its leading blanks. -/
def afterMark? (line : List Char) : Option (List Char) :=
  let rest := line.dropWhile Text.isBlank
  if mark.isPrefixOf rest then some (rest.drop mark.length) else none

/-- Read a directive from what follows the mark: a name, then the end or a blank. -/
def ofMarked? (rest : List Char) : Option Directive :=
  let name := rest.takeWhile isNameChar
  let tail := rest.dropWhile isNameChar
  if name.head?.any isNameStart && tail.head?.all Text.isBlank then
    some ⟨String.ofList name, (Text.words isSeparator tail).map String.ofList⟩
  else none

/-- The directive on a line, if the line is one. -/
def ofLine? (line : List Char) : Option Directive :=
  (afterMark? line).bind ofMarked?

end Directive

/-- Directives grouped by name. -/
structure Directives where
  entries : List Directive
deriving DecidableEq, Repr

namespace Directives

def empty : Directives := ⟨[]⟩

def useName : String := "use"

/-- Add a directive to a list of groups: to the group of its name, or as a new last group. -/
def pushEntry (d : Directive) : List Directive → List Directive
  | [] => [d]
  | e :: rest => if e.name = d.name then { e with args := e.args ++ d.args } :: rest
    else e :: pushEntry d rest

/-- Add a directive: its arguments go to the group of its name. -/
def push (ds : Directives) (d : Directive) : Directives := ⟨pushEntry d ds.entries⟩

/-- The directives of a documentation text, grouped by name. -/
def parseText (doc : String) : Directives :=
  ((Text.lines doc.toList).filterMap Directive.ofLine?).foldl push empty

/-- The directives of an optional documentation text; without a text there are none. -/
def parse : Option String → Directives
  | none => empty
  | some doc => parseText doc

/-- The arguments under a name. -/
def get? (ds : Directives) (name : String) : Option (List String) :=
  (ds.entries.find? fun d => d.name = name).map (·.args)

def size (ds : Directives) : Nat := ds.entries.length

/-- The handlers that the directives ask for, each once, in the order of first mention. -/
def uses (ds : Directives) : List String :=
  ((ds.get? useName).getD []).eraseDups

@[simp] theorem parse_none : parse none = empty := rfl

@[simp] theorem entries_empty : empty.entries = [] := rfl

@[simp] theorem entries_push (ds : Directives) (d : Directive) :
    (ds.push d).entries = pushEntry d ds.entries := rfl

end Directives

end Graft
