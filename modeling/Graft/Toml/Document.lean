import Graft.Toml.Text
import Graft.Toml.Value

/-!
# Reading a settings document

A TOML document is a sequence of lines: empty ones, comments, headers `[table]` and `[[table]]`,
and settings `key = value`. Keys may have several parts with dots between them, which name tables
inside tables. No key is set twice, no header is given twice, and a table that a value wrote out is
not extended later.

`Document` keeps the tables that are complete and the one that is being filled.
-/

namespace Graft.Toml

/-- Turn a failed scan into a fault. -/
def scanned {α : Type} : Option α → Except Fault α
  | some a => .ok a
  | none => .error .malformed

/-- A key: the parts on the way, the last part, and what is left. -/
def key (text : List Char) : Except Fault (List String × String × List Char) := do
  let (parts, rest) ← scanned (keyParts (text.length + 1) text)
  if parts.length ≥ maxLevels then .error .tooDeep
  else match parts.getLast? with
    | some last => .ok (parts.dropLast, last, rest)
    | none => .error .malformed

/-- Set a key inside the fields of a table in braces. Tables that are missing on the way are made;
only tables that were made so can be entered. -/
def insertValue : (path : List String) → (last : String) → (v : Value) →
    List (String × Value) → Except Fault (List (String × Value))
  | [], last, v, fields =>
    match fields.lookup last with
    | some _ => .error (.duplicate last)
    | none => .ok (setField last v fields)
  | name :: path, last, v, fields =>
    match fields.lookup name with
    | none => do
      let inner ← insertValue path last v []
      .ok (setField name (.table true inner) fields)
    | some (.table true inner) => do
      let inner ← insertValue path last v inner
      .ok (setField name (.table true inner) fields)
    | some _ => .error (.duplicate name)

mutual

/-- A value. `levels` is how many lists and tables may still open, `fuel` bounds the length. -/
def value : (fuel : Nat) → (levels : Nat) → List Char → Except Fault (Value × List Char)
  | 0, _, _ => .error .malformed
  | fuel + 1, levels, text =>
    match text with
    | [] => .error .malformed
    | '[' :: rest =>
      match levels with
      | 0 => .error .tooDeep
      | levels + 1 => do
        let (vs, rest) ← elements fuel levels rest
        .ok (.list vs, rest)
    | '\x7b' :: rest =>
      match levels with
      | 0 => .error .tooDeep
      | levels + 1 =>
        match skipBlanks rest with
        | '\x7d' :: rest => .ok (.table false [], rest)
        | rest => do
          let (fields, rest) ← fields fuel levels [] rest
          .ok (.table false fields, rest)
    | 't' :: 'r' :: 'u' :: 'e' :: rest => .ok (.flag true, rest)
    | 'f' :: 'a' :: 'l' :: 's' :: 'e' :: rest => .ok (.flag false, rest)
    | c :: _ =>
      if c = '"' ∨ c = '\'' then do
        let (cs, rest) ← scanned (quoted text)
        .ok (.text (String.ofList cs), rest)
      else match moment text with
        | some (written, rest) => .ok (.moment written, rest)
        | none =>
          match float text with
          | some (written, rest) => .ok (.float written, rest)
          | none => do
            let (n, rest) ← scanned (integer text)
            .ok (.integer n, rest)

/-- The elements of a list up to its closing bracket. -/
def elements : (fuel : Nat) → (levels : Nat) → List Char → Except Fault (List Value × List Char)
  | 0, _, _ => .error .malformed
  | fuel + 1, levels, text =>
    match skipLines (text.length + 1) text with
    | ']' :: rest => .ok ([], rest)
    | rest => do
      let (v, rest) ← value fuel levels rest
      match skipLines (rest.length + 1) rest with
      | ',' :: rest => do
        let (vs, rest) ← elements fuel levels rest
        .ok (v :: vs, rest)
      | ']' :: rest => .ok ([v], rest)
      | _ => .error .malformed

/-- The fields of a table in braces, added to `done`, up to its closing brace. -/
def fields : (fuel : Nat) → (levels : Nat) → (done : List (String × Value)) → List Char →
    Except Fault (List (String × Value) × List Char)
  | 0, _, _, _ => .error .malformed
  | fuel + 1, levels, done, text => do
    let (path, last, rest) ← key text
    match rest with
    | '=' :: rest => do
      let (v, rest) ← value fuel levels (skipBlanks rest)
      let done ← insertValue path last v done
      match skipBlanks rest with
      | ',' :: rest => fields fuel levels done rest
      | '\x7d' :: rest => .ok (done, rest)
      | _ => .error .malformed
    | _ => .error .malformed

end

/-- What has been read of a document. -/
structure Document where
  /-- The tables that are complete. -/
  root : Table
  /-- The table that is being filled. -/
  current : Table
  /-- The header of that table; none for the start of the document. -/
  header : List String
  /-- Whether the header is one of several. -/
  oneOfMany : Bool

namespace Document

def empty : Document := ⟨Table.empty, Table.empty, [], false⟩

/-- Change the table that a path leads to. Missing tables are made on the way. Of tables under one
header each, the last one is entered. A path of dotted keys enters only tables that no header has
named. -/
def update (dotted : Bool) : (path : List String) → Table → (Table → Except Fault Table) →
    Except Fault Table
  | [], t, f => f t
  | name :: path, t, f =>
    match t.fields.lookup name with
    | none => do
      let u ← update dotted path ⟨true, dotted, []⟩ f
      .ok { t with fields := setField name (.table u.implicit u.dotted u.fields) t.fields }
    | some (.value _) => .error (.duplicate name)
    | some (.table i d fields) =>
      if dotted && !i then .error (.duplicate name)
      else do
        let u ← update dotted path ⟨i, d, fields⟩ f
        .ok { t with fields := setField name (.table u.implicit u.dotted u.fields) t.fields }
    | some (.tables elements) =>
      match elements.getLast? with
      | none => .error (.duplicate name)
      | some last => do
        let u ← update dotted path ⟨false, false, last⟩ f
        .ok { t with fields := setField name (.tables (elements.dropLast ++ [u.fields])) t.fields }

/-- Put the current table where its header says. -/
def finish (d : Document) : Except Fault Table :=
  match d.header.getLast? with
  | none => .ok d.current
  | some last =>
    update false d.header.dropLast d.root fun t =>
      let put (item : Item) : Except Fault Table :=
        .ok { t with fields := setField last item t.fields }
      let table : Item := .table d.current.implicit d.current.dotted d.current.fields
      match t.fields.lookup last, d.oneOfMany with
      | none, false => put table
      | some (.table true _ _), false => put table
      | none, true => put (.tables [d.current.fields])
      | some (.tables elements), true => put (.tables (elements ++ [d.current.fields]))
      | _, _ => .error (.duplicate last)

/-- Set a key of the current table. -/
def set (d : Document) (path : List String) (last : String) (v : Value) : Except Fault Document := do
  let current ← update true path d.current fun t =>
    if t.dotted == path.isEmpty then .error (.duplicate last)
    else match t.fields.lookup last with
      | some _ => .error (.duplicate last)
      | none => .ok { t with fields := setField last (.value v) t.fields }
  .ok { d with current := current }

/-- Start the table of a header. A table that only the headers of its own tables have named goes
on. -/
def startTable (d : Document) (path : List String) (last : String) : Except Fault Document := do
  let root ← d.finish
  let root ← update false path root .ok
  let found := (lookupIn path root).bind fun fields => fields.lookup last
  match found with
  | none => .ok ⟨root, Table.empty, path ++ [last], false⟩
  | some (.table true false fields) => do
    let root ← update false path root fun t =>
      .ok { t with fields := t.fields.filter fun f => f.1 ≠ last }
    .ok ⟨root, ⟨false, false, fields⟩, path ++ [last], false⟩
  | some _ => .error (.duplicate last)
where
  /-- The fields of the table that a path leads to. -/
  lookupIn : List String → Table → Option (List (String × Item))
    | [], t => some t.fields
    | name :: path, t =>
      match t.fields.lookup name with
      | some (.table i d fields) => lookupIn path ⟨i, d, fields⟩
      | some (.tables elements) =>
        elements.getLast?.bind fun last => lookupIn path ⟨false, false, last⟩
      | _ => none

/-- Start one of several tables under the same header. -/
def startElement (d : Document) (path : List String) (last : String) : Except Fault Document := do
  let root ← d.finish
  let root ← update false path root fun t =>
    match t.fields.lookup last with
    | none => .ok { t with fields := setField last (.tables []) t.fields }
    | some (.tables _) => .ok t
    | some _ => .error (.duplicate last)
  .ok ⟨root, Table.empty, path ++ [last], true⟩

/-- Read lines until the text ends; each takes at least one character. -/
def readLines : (fuel : Nat) → Document → List Char → Except Fault Document
  | 0, _, _ => .error .malformed
  | fuel + 1, d, text =>
    match skipBlanks text with
    | [] => .ok d
    | '#' :: rest => do
      let rest ← scanned (lineEnd ('#' :: rest))
      readLines fuel d rest
    | '[' :: '[' :: rest => do
      let (path, last, rest) ← key rest
      match rest with
      | ']' :: ']' :: rest => do
        let rest ← scanned (lineEnd rest)
        readLines fuel (← d.startElement path last) rest
      | _ => .error .malformed
    | '[' :: rest => do
      let (path, last, rest) ← key rest
      match rest with
      | ']' :: rest => do
        let rest ← scanned (lineEnd rest)
        readLines fuel (← d.startTable path last) rest
      | _ => .error .malformed
    | c :: rest =>
      if c = '\n' ∨ c = '\r' then do
        let rest ← scanned (newline (c :: rest))
        readLines fuel d rest
      else do
        let (path, last, rest) ← key (c :: rest)
        match rest with
        | '=' :: rest => do
          let (v, rest) ← value (rest.length + 1) (maxLevels - 1) (skipBlanks rest)
          let rest ← scanned (lineEnd rest)
          readLines fuel (← d.set path last v) rest
        | _ => .error .malformed

end Document

/-- The top-level table of a document. A byte order mark at the start does not count. -/
def parse (text : String) : Except Fault Table := do
  let chars := match text.toList with
    | '\ufeff' :: rest => rest
    | chars => chars
  let d ← Document.readLines (chars.length + 1) Document.empty chars
  d.finish

end Graft.Toml
