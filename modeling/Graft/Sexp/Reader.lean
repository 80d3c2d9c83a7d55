import Graft.Sexp.Fault
import Graft.Text.Blank
import Graft.Tree.SourceUnit

/-!
# Reading a unit

A unit is a sequence of comments and lists. A comment runs from `;` to the end of its line. A list
is an opening parenthesis, a head symbol, elements (lists, strings, symbols) and a closing
parenthesis; space, tab, carriage return and line feed may stand between them. A symbol is a
longest run of characters that are no blank, no parenthesis, no quotation mark and no semicolon.
In a string a backslash takes the next character literally, except that `n` and `t` stand for line
feed and tab.

Comments directly above an item document it. The first comment block documents the whole unit when
an empty line, or the end of the text, separates it from the first item. All other comment blocks
are dropped. Two line feeds with only layout between and around them make an empty line.

The reader takes one character at a time: `State.step` is the effect of a character and
`State.finish` that of the end of the text. So reading a text in two parts is reading the first
part and then the second, and a fault has the offset of the character that raised it.
-/

namespace Graft.Sexp

/-- The characters of a symbol. -/
def isSymbolChar (c : Char) : Bool :=
  !Text.isBlank c && c != '(' && c != ')' && c != '"' && c != ';'

/-- A list can open while at most this many lists are open. -/
def maxOpen : Nat := 256

/-- The value of a character after a backslash. -/
def unescape : Char → Char
  | 'n' => '\n'
  | 't' => '\t'
  | c => c

/-- Leave out all carriage returns at the end of a line. -/
def dropReturns (line : List Char) : List Char :=
  (line.reverse.dropWhile (· == '\r')).reverse

/-- Leave out one space at the start of a line. -/
def dropSpace : List Char → List Char
  | ' ' :: rest => rest
  | line => line

/-- The text of a comment, given what follows its first semicolon: without carriage returns at the
end, without further semicolons, and without one space after them. -/
def commentText (line : List Char) : List Char :=
  dropSpace ((dropReturns line).dropWhile (· == ';'))

/-- The kind of a list with the given head, by the kind of the list around it. -/
def listKind (head : String) : Option Kind → Kind
  | none => if head = "import" then .reference else .decl
  | some .decl => .stmt
  | some _ => .expr

/-- An open list whose head has been read. -/
structure Frame where
  start : Nat
  kind : Kind
  head : String
  /-- The elements so far, the latest first. -/
  children : List Node
deriving Repr

/-- What the next character belongs to. Texts are kept with the latest character first. -/
inductive Mode where
  /-- Outside every list, after the given number of line feeds. -/
  | outside (newlines : Nat)
  /-- In a comment. -/
  | comment (text : List Char)
  /-- After an opening parenthesis at `start`, before its head. -/
  | opened (start : Nat)
  /-- In the head of the list that was opened at `start`. -/
  | head (start : Nat) (text : List Char)
  /-- In a list, between elements. -/
  | inside
  /-- In a symbol. -/
  | symbol (start : Nat) (text : List Char)
  /-- In a string. -/
  | string (start : Nat) (text : List Char)
  /-- In a string, after a backslash. -/
  | escape (start : Nat) (text : List Char)
deriving Repr

/-- What has been read so far. -/
structure State where
  /-- The offset of the next character. -/
  offset : Nat
  mode : Mode
  /-- The open lists whose heads have been read, the innermost first. -/
  frames : List Frame
  /-- The documentation of the unit. -/
  doc : Option String
  /-- The finished top-level items, the latest first. -/
  items : List Node
  /-- The comment lines that no item has claimed yet, the latest first. -/
  pending : List String
deriving Repr

namespace State

/-- Nothing has been read. -/
def initial : State := ⟨0, .outside 0, [], none, [], []⟩

/-- The text of the pending comment lines. -/
def pendingDoc (s : State) : Option String :=
  if s.pending.isEmpty then none else some ("\n".intercalate s.pending.reverse)

/-- End the pending comment block with an empty line: it documents the unit if it comes before
every item and no earlier block does, and else it is dropped. -/
def detach (s : State) : State :=
  { s with
    doc := if s.items.isEmpty && s.doc.isNone then s.pendingDoc else s.doc
    pending := [] }

/-- Keep a finished comment line. -/
def keepComment (s : State) (text : List Char) : State :=
  { s with pending := String.ofList (commentText text.reverse) :: s.pending }

/-- Add a finished element to the innermost open list. -/
def addChild (s : State) (n : Node) : State :=
  match s.frames with
  | [] => s
  | f :: outer => { s with frames := { f with children := n :: f.children } :: outer }

/-- Add a finished top-level item, documented by the pending comment lines. -/
def addItem (s : State) (n : Node) : State :=
  { s with items := { n with doc := s.pendingDoc } :: s.items, pending := [] }

/-- Close the innermost open list with the character at the current offset. -/
def closeList (s : State) : Except Fault State :=
  match s.frames with
  | [] => .error (.unexpected ')')
  | f :: outer =>
    let n : Node := ⟨f.kind, f.head, ⟨f.start, s.offset + 1⟩, none, f.children.reverse⟩
    let s := { s with frames := outer }
    .ok (if outer.isEmpty then { s.addItem n with mode := .outside 0 }
      else { s.addChild n with mode := .inside })

/-- Open a list with the character at the current offset. -/
def openList (s : State) : Except Fault State :=
  if s.frames.length > maxOpen then .error .tooDeep
  else .ok { s with mode := .opened s.offset }

/-- The head of the list opened at `start` is complete. -/
def closeHead (s : State) (start : Nat) (text : List Char) : State :=
  let head := String.ofList text.reverse
  let kind := listKind head (s.frames.head?.map (·.kind))
  { s with mode := .inside, frames := ⟨start, kind, head, []⟩ :: s.frames }

/-- The symbol that started at `start` is complete. -/
def closeSymbol (s : State) (start : Nat) (text : List Char) : State :=
  let n : Node := ⟨.ident, String.ofList text.reverse, ⟨start, s.offset⟩, none, []⟩
  { s.addChild n with mode := .inside }

/-- The string that started at `start` is complete with the character at the current offset. -/
def closeString (s : State) (start : Nat) (text : List Char) : State :=
  let n : Node := ⟨.literal, String.ofList text.reverse, ⟨start, s.offset + 1⟩, none, []⟩
  { s.addChild n with mode := .inside }

/-- A character outside every list. -/
def stepOutside (s : State) (newlines : Nat) (c : Char) : Except Fault State :=
  if Text.isLayout c then
    let newlines := if c = '\n' then newlines + 1 else newlines
    let s := if 2 ≤ newlines then s.detach else s
    .ok { s with mode := .outside newlines }
  else if c = ';' then .ok { s with mode := .comment [] }
  else if c = '(' then s.openList
  else .error .outsideList

/-- A character between the elements of a list. -/
def stepInside (s : State) (c : Char) : Except Fault State :=
  if Text.isLayout c then .ok { s with mode := .inside }
  else if c = ')' then s.closeList
  else if c = '(' then s.openList
  else if c = '"' then .ok { s with mode := .string s.offset [] }
  else if isSymbolChar c then .ok { s with mode := .symbol s.offset [c] }
  else .error (.unexpected c)

/-- The effect of a character, before the offset moves on. -/
def read (s : State) (c : Char) : Except Fault State :=
  match s.mode with
  | .outside newlines => s.stepOutside newlines c
  | .comment text =>
    if c = '\n' then .ok { s.keepComment text with mode := .outside 1 }
    else .ok { s with mode := .comment (c :: text) }
  | .opened start =>
    if Text.isLayout c then .ok s
    else if isSymbolChar c then .ok { s with mode := .head start [c] }
    else .error .noHead
  | .head start text =>
    if isSymbolChar c then .ok { s with mode := .head start (c :: text) }
    else (s.closeHead start text).stepInside c
  | .inside => s.stepInside c
  | .symbol start text =>
    if isSymbolChar c then .ok { s with mode := .symbol start (c :: text) }
    else (s.closeSymbol start text).stepInside c
  | .string start text =>
    if c = '"' then .ok (s.closeString start text)
    else if c = '\\' then .ok { s with mode := .escape start text }
    else .ok { s with mode := .string start (c :: text) }
  | .escape start text => .ok { s with mode := .string start (unescape c :: text) }

/-- The effect of a character. -/
def step (s : State) (c : Char) : Except Fault State :=
  match s.read c with
  | .error fault => .error fault
  | .ok s' => .ok { s' with offset := s.offset + c.utf8Size }

/-- The effect of the end of the text. -/
def finish (s : State) : Except Fault (Option String × List Node) :=
  match s.mode with
  | .outside _ => let s := s.detach; .ok (s.doc, s.items.reverse)
  | .comment text => let s := (s.keepComment text).detach; .ok (s.doc, s.items.reverse)
  | .opened _ => .error .noHead
  | .head .. | .inside | .symbol .. => .error .unclosedList
  | .string .. => .error .unterminatedString
  | .escape .. => .error .unfinishedEscape

/-- Read a text from a state on. A fault comes with the offset at which it arose. -/
def run (s : State) : List Char → Except (Nat × Fault) State
  | [] => .ok s
  | c :: rest =>
    match s.step c with
    | .error fault => .error (s.offset, fault)
    | .ok s => s.run rest

@[simp] theorem run_nil (s : State) : s.run [] = .ok s := rfl

/-- Reading a text in two parts is reading the first part and then the second. -/
theorem run_append (s : State) (a b : List Char) :
    s.run (a ++ b) = (s.run a).bind fun s => s.run b := by
  induction a generalizing s with
  | nil => rfl
  | cons c a ih =>
    rw [List.cons_append, run, run]
    cases s.step c with
    | error fault => rfl
    | ok s => exact ih s

end State

/-- The documentation and the top-level items of a text. -/
def read (text : List Char) : Except (Nat × Fault) (Option String × List Node) :=
  match State.initial.run text with
  | .error e => .error e
  | .ok s =>
    match s.finish with
    | .error fault => .error (s.offset, fault)
    | .ok unit => .ok unit

/-- The unit in the text of a file. -/
def parse (path : Path) (text : String) : Except (Nat × Fault) SourceUnit :=
  match read text.toList with
  | .error e => .error e
  | .ok (doc, items) => .ok (.ofItems ⟨path, text⟩ doc items)

end Graft.Sexp
