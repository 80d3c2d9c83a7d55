import Graft.Glob.Fault

/-!
# Patterns for paths

A pattern is a list of tokens. `?` and `*` stand for one byte and for any number of bytes, the
separator included. A whole component `**` stands for any number of components. A class in
brackets stands for one of its bytes, or with `!` or `^` in front for any other byte; a bracket
that closes at once is a member, and so is a hyphen at either end. Braces hold alternatives, which
commas separate and which may hold braces again. A backslash takes the next character literally.

The reader keeps the alternatives that are still open as branches: the tokens read last go to the
last branch, and `opened` says where the branches of each open group start.
-/

namespace Graft.Glob

/-- A piece of a pattern. -/
inductive Token where
  /-- One character, literally. -/
  | literal (c : Char)
  /-- One byte. -/
  | any
  /-- Any number of bytes. -/
  | many
  /-- Any number of components at the start. -/
  | leadingDirs
  /-- A separator and anything after it, at the end. -/
  | trailingDirs
  /-- A separator, any number of components, and a separator if there were any. -/
  | innerDirs
  /-- One byte inside the ranges, or outside them. -/
  | oneOf (negated : Bool) (ranges : List (Char × Char))
  /-- One of several token lists. -/
  | alternates (branches : List (List Token))
deriving Repr

namespace Reader

/-- What has been read so far. -/
structure State where
  /-- The character before the one at hand. -/
  before : Option Char
  /-- Where the branches of each open group start, the innermost group first. -/
  opened : List Nat
  /-- The open branches, the last one first, each with its latest token first. -/
  branches : List (List Token)
  rest : List Char

def State.initial (pattern : List Char) : State := ⟨none, [], [[]], pattern⟩

/-- Add a token to the last branch. -/
def State.push (s : State) (t : Token) : State :=
  match s.branches with
  | [] => { s with branches := [[t]] }
  | b :: bs => { s with branches := (t :: b) :: bs }

/-- Take the latest token off the last branch. -/
def State.pop (s : State) : Option Token × State :=
  match s.branches with
  | (t :: b) :: bs => (some t, { s with branches := b :: bs })
  | _ => (none, s)

def State.hasTokens (s : State) : Bool :=
  match s.branches with
  | (_ :: _) :: _ => true
  | _ => false

/-- Move on to `rest`, `c` being the last character that was taken. -/
def State.moveTo (s : State) (c : Char) (rest : List Char) : State :=
  { s with before := some c, rest := rest }

/-- Start a group of alternatives. -/
def State.openGroup (s : State) : State :=
  { s with opened := s.branches.length :: s.opened, branches := [] :: s.branches }

/-- End the innermost group of alternatives. -/
def State.closeGroup (s : State) : Except Fault State :=
  match s.opened with
  | [] => .error .unopenedAlternates
  | start :: opened =>
    let count := s.branches.length - start
    let group := ((s.branches.take count).map List.reverse).reverse
    .ok ({ s with opened := opened, branches := s.branches.drop count }.push (.alternates group))

/-- A comma: it starts a new branch inside a group, and is literal elsewhere. -/
def State.comma (s : State) : State :=
  if s.opened.isEmpty then s.push (.literal ',') else { s with branches := [] :: s.branches }

/-- Two stars that are no whole component. -/
def State.twoStars (s : State) : State := (s.push .many).push .many

/-- A star, `before` being the character before it and `s.rest` what follows it. -/
def star (s : State) (before : Option Char) : State :=
  match s.rest with
  | '*' :: rest =>
    let s := s.moveTo '*' rest
    if !s.hasTokens then
      match rest with
      | [] => s.push .leadingDirs
      | '/' :: after => (s.push .leadingDirs).moveTo '/' after
      | _ => s.twoStars
    else if before ≠ some '/' ∧
        (s.branches.length ≤ 1 ∨ (before ≠ some ',' ∧ before ≠ some '\x7b')) then
      s.twoStars
    else
      let component (isSuffix : Bool) (s : State) : State :=
        match s.pop with
        | (some .leadingDirs, s) => s.push .leadingDirs
        | (some .trailingDirs, s) => s.push .trailingDirs
        | (_, s) => s.push (if isSuffix then .trailingDirs else .innerDirs)
      match rest with
      | [] => component true s
      | '/' :: after => component false (s.moveTo '/' after)
      | c :: _ =>
        if (c = ',' ∨ c = '\x7d') ∧ s.branches.length ≥ 2 then component true s else s.twoStars
  | _ => s.push .many

/-- The members of a class as far as they are known, the latest range first. -/
structure Class where
  ranges : List (Char × Char)
  /-- Whether a hyphen waits for the end of a range. -/
  inRange : Bool

/-- End the latest range at a character. -/
def Class.close (k : Class) (c : Char) : Except Fault Class :=
  match k.ranges with
  | [] => .ok ⟨[(c, c)], false⟩
  | (first, _) :: more =>
    if c < first then .error (.invalidRange first c) else .ok ⟨(first, c) :: more, false⟩

/-- Read the members of a class up to its closing bracket, `previous` being the last character. -/
def members : (first : Bool) → Class → List Char → Except Fault (Class × List Char)
  | _, _, [] => .error .unclosedClass
  | first, k, c :: rest =>
    if c = ']' ∧ !first then .ok (k, rest)
    else if c = '-' ∧ !first then
      if k.inRange then
        match k.close '-' with
        | .error fault => .error fault
        | .ok k => members false k rest
      else members false { k with inRange := true } rest
    else if c ≠ ']' ∧ c ≠ '-' ∧ k.inRange then
      match k.close c with
      | .error fault => .error fault
      | .ok k => members false k rest
    else members false { k with ranges := (c, c) :: k.ranges } rest

/-- Read a class after its opening bracket. -/
def oneOf (s : State) : Except Fault State :=
  let (negated, body) := match s.rest with
    | '!' :: rest => (true, rest)
    | '^' :: rest => (true, rest)
    | rest => (false, rest)
  match members true ⟨[], false⟩ body with
  | .error fault => .error fault
  | .ok (k, rest) =>
    let ranges := if k.inRange then ('-', '-') :: k.ranges else k.ranges
    .ok ((s.moveTo ']' rest).push (.oneOf negated ranges.reverse))

/-- Read one token. -/
def token (s : State) (c : Char) (rest : List Char) : Except Fault State :=
  let before := s.before
  let s := s.moveTo c rest
  match c with
  | '?' => .ok (s.push .any)
  | '*' => .ok (star s before)
  | '[' => oneOf s
  | '\x7b' => .ok s.openGroup
  | '\x7d' => s.closeGroup
  | ',' => .ok s.comma
  | '\\' =>
    match rest with
    | [] => .error .danglingEscape
    | c :: rest => .ok ((s.moveTo c rest).push (.literal c))
  | c => .ok (s.push (.literal c))

/-- Read tokens until the pattern ends; each takes at least one character. -/
def tokens : (fuel : Nat) → State → Except Fault State
  | 0, s => .ok s
  | fuel + 1, s =>
    match s.rest with
    | [] => .ok s
    | c :: rest =>
      match token s c rest with
      | .error fault => .error fault
      | .ok s => tokens fuel s

end Reader

/-- The tokens of a pattern. -/
def parse (pattern : String) : Except Fault (List Token) :=
  let text := pattern.toList
  match Reader.tokens text.length (Reader.State.initial text) with
  | .error fault => .error fault
  | .ok s =>
    match s.branches with
    | [tokens] => .ok tokens.reverse
    | _ => .error .unclosedAlternates

end Graft.Glob
