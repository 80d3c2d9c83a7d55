import Graft.Text.Quoted

/-!
# JSON text

Values of the data format JSON, with the fields of a record in a fixed order, and their text: one
element or field a line, two spaces of indentation for each level.
-/

namespace Graft.Text

/-- A JSON value. The fields of a record stand in order. -/
inductive Json where
  | text (t : String)
  | number (n : Nat)
  | flag (b : Bool)
  | list (elements : List Json)
  | record (fields : List (String × Json))
deriving Repr

namespace Json

/-- The four digits of a control character. -/
def controlDigits (c : Char) : String :=
  let digits := hex c.toNat
  String.ofList (List.replicate (4 - digits.length) '0') ++ digits

/-- A character inside a JSON string. -/
def escape (c : Char) : String :=
  if c = '"' then "\\\""
  else if c = '\\' then "\\\\"
  else if c = '\x08' then "\\b"
  else if c = '\x0c' then "\\f"
  else if c = '\n' then "\\n"
  else if c = '\r' then "\\r"
  else if c = '\t' then "\\t"
  else if c.toNat < 32 then "\\u" ++ controlDigits c
  else String.singleton c

/-- A JSON string. -/
def string (t : String) : String :=
  "\"" ++ String.join (t.toList.map escape) ++ "\""

/-- The start of a line at a level of indentation. -/
def newline (level : Nat) : String :=
  "\n" ++ String.ofList (List.replicate (2 * level) ' ')

mutual

/-- The text of a value whose lines are indented by `level`. -/
def pretty (level : Nat) : Json → String
  | .text t => string t
  | .number n => toString n
  | .flag b => if b then "true" else "false"
  | .list [] => "[]"
  | .list (e :: es) =>
    "[" ++ prettyElements (level + 1) (e :: es) ++ newline level ++ "]"
  | .record [] => "\x7b\x7d"
  | .record (f :: fs) =>
    "\x7b" ++ prettyFields (level + 1) (f :: fs) ++ newline level ++ "\x7d"

/-- The elements of a list, each on its own line. -/
def prettyElements (level : Nat) : List Json → String
  | [] => ""
  | [e] => newline level ++ pretty level e
  | e :: es => newline level ++ pretty level e ++ "," ++ prettyElements level es

/-- The fields of a record, each on its own line. -/
def prettyFields (level : Nat) : List (String × Json) → String
  | [] => ""
  | [(key, v)] => newline level ++ string key ++ ": " ++ pretty level v
  | (key, v) :: fs =>
    newline level ++ string key ++ ": " ++ pretty level v ++ "," ++ prettyFields level fs

end

def render (v : Json) : String := pretty 0 v

end Json

end Graft.Text
