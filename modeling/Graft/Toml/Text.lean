import Graft.Toml.Number

/-!
# Texts, blanks and comments

The quoted forms of a TOML document and what may stand between its parts. A text stands in double
or single quotation marks, on one line or, between three marks, on several. Only in double marks a
backslash starts an escape. Control characters other than the tab cannot stand in any of them.
-/

namespace Graft.Toml

/-- Whether a character can stand in a comment or a text: no control character but the tab. -/
def isPlain (c : Char) : Bool := c == '\t' || (c.toNat ≥ 0x20 && c.toNat ≠ 0x7f)

/-- Leave out spaces and tabs. -/
def skipBlanks (text : List Char) : List Char :=
  text.dropWhile fun c => c == ' ' || c == '\t'

/-- A line ending; the answer is what is left after it. -/
def newline : List Char → Option (List Char)
  | '\n' :: rest => some rest
  | '\r' :: '\n' :: rest => some rest
  | _ => none

/-- Leave out a comment, if one stands there. -/
def skipComment : List Char → List Char
  | '#' :: rest => rest.dropWhile isPlain
  | text => text

/-- The rest of a line: blanks and a comment, then a line ending or the end of the text. -/
def lineEnd (text : List Char) : Option (List Char) :=
  match skipComment (skipBlanks text) with
  | [] => some []
  | rest => newline rest

/-- Leave out blanks and line endings. -/
def skipBlankLines : List Char → List Char
  | ' ' :: rest => skipBlankLines rest
  | '\t' :: rest => skipBlankLines rest
  | '\n' :: rest => skipBlankLines rest
  | '\r' :: '\n' :: rest => skipBlankLines rest
  | rest => rest

/-- Leave out blanks, and comments and line endings with them. `fuel` bounds the number of
lines. -/
def skipLines : (fuel : Nat) → List Char → List Char
  | 0, text => text
  | fuel + 1, text =>
    let rest := skipBlanks text
    match newline (skipComment rest) with
    | some rest => skipLines fuel rest
    | none => rest

/-- The character of a code point in hexadecimal with exactly `n` digits. -/
def codePoint (n : Nat) (text : List Char) : Option (Char × List Char) :=
  let front := text.take n
  let v := natOf 16 front
  if front.length = n ∧ front.all isHexDigit ∧ v.isValidChar then
    some (Char.ofNat v, text.drop n)
  else none

/-- A character after a backslash. -/
def escape : List Char → Option (Char × List Char)
  | 'b' :: rest => some ('\x08', rest)
  | 't' :: rest => some ('\t', rest)
  | 'n' :: rest => some ('\n', rest)
  | 'f' :: rest => some ('\x0c', rest)
  | 'r' :: rest => some ('\r', rest)
  | '"' :: rest => some ('"', rest)
  | '\\' :: rest => some ('\\', rest)
  | 'u' :: rest => codePoint 4 rest
  | 'U' :: rest => codePoint 8 rest
  | _ => none

/-- The rest of a text in double marks, on one line. -/
def basicText : (fuel : Nat) → List Char → Option (List Char × List Char)
  | 0, _ => none
  | fuel + 1, text =>
    match text with
    | [] => none
    | '"' :: rest => some ([], rest)
    | '\\' :: rest => do
      let (c, rest) ← escape rest
      let (cs, rest) ← basicText fuel rest
      some (c :: cs, rest)
    | c :: rest =>
      if isPlain c then do
        let (cs, rest) ← basicText fuel rest
        some (c :: cs, rest)
      else none

/-- The rest of a text in single marks, on one line. -/
def literalText (text : List Char) : Option (List Char × List Char) :=
  let body := text.takeWhile fun c => isPlain c && c != '\''
  match text.drop body.length with
  | '\'' :: rest => some (body, rest)
  | _ => none

/-- The end of a text between three marks: up to two marks before them belong to the text. -/
def closing (mark : Char) (text : List Char) : Option (List Char × List Char) :=
  let marks := text.takeWhile (· = mark)
  let count := marks.length
  if count < 3 then none
  else
    let inside := min (count - 3) 2
    some (List.replicate inside mark, text.drop (inside + 3))

/-- The rest of a text between three double marks. A backslash at the end of a line leaves out the
line ending and all blanks after it. -/
def longBasicText : (fuel : Nat) → List Char → Option (List Char × List Char)
  | 0, _ => none
  | fuel + 1, text =>
    match text with
    | [] => none
    | '"' :: rest =>
      match closing '"' text with
      | some (cs, rest) => some (cs, rest)
      | none => do
        let (cs, rest) ← longBasicText fuel rest
        some ('"' :: cs, rest)
    | '\\' :: rest =>
      match newline (skipBlanks rest) with
      | some rest => longBasicText fuel (skipBlankLines rest)
      | none => do
        let (c, rest) ← escape rest
        let (cs, rest) ← longBasicText fuel rest
        some (c :: cs, rest)
    | c :: more =>
      match newline text with
      | some rest => do
        let (cs, rest) ← longBasicText fuel rest
        some ('\n' :: cs, rest)
      | none =>
        if isPlain c then do
          let (cs, rest) ← longBasicText fuel more
          some (c :: cs, rest)
        else none

/-- The rest of a text between three single marks. -/
def longLiteralText : (fuel : Nat) → List Char → Option (List Char × List Char)
  | 0, _ => none
  | fuel + 1, text =>
    match text with
    | [] => none
    | '\'' :: rest =>
      match closing '\'' text with
      | some (cs, rest) => some (cs, rest)
      | none => do
        let (cs, rest) ← longLiteralText fuel rest
        some ('\'' :: cs, rest)
    | c :: more =>
      match newline text with
      | some rest => do
        let (cs, rest) ← longLiteralText fuel rest
        some ('\n' :: cs, rest)
      | none =>
        if isPlain c then do
          let (cs, rest) ← longLiteralText fuel more
          some (c :: cs, rest)
        else none

/-- Leave out a line ending directly after the opening marks. -/
def skipFirstNewline (text : List Char) : List Char := (newline text).getD text

/-- A text in one of the four quoted forms. -/
def quoted : List Char → Option (List Char × List Char)
  | '"' :: '"' :: '"' :: rest => longBasicText (rest.length + 1) (skipFirstNewline rest)
  | '"' :: rest => basicText (rest.length + 1) rest
  | '\'' :: '\'' :: '\'' :: rest => longLiteralText (rest.length + 1) (skipFirstNewline rest)
  | '\'' :: rest => literalText rest
  | _ => none

def isKeyChar (c : Char) : Bool := c.isAlphanum || c == '_' || c == '-'

/-- One part of a key. -/
def keyPart : List Char → Option (String × List Char)
  | '"' :: rest => (basicText (rest.length + 1) rest).map fun (cs, rest) => (String.ofList cs, rest)
  | '\'' :: rest => (literalText rest).map fun (cs, rest) => (String.ofList cs, rest)
  | text =>
    let name := text.takeWhile isKeyChar
    if name.isEmpty then none else some (String.ofList name, text.drop name.length)

/-- The parts of a key, dots between them and blanks around them. `fuel` bounds their number. -/
def keyParts : (fuel : Nat) → List Char → Option (List String × List Char)
  | 0, _ => none
  | fuel + 1, text => do
    let (part, rest) ← keyPart (skipBlanks text)
    match skipBlanks rest with
    | '.' :: rest => do
      let (parts, rest) ← keyParts fuel rest
      some (part :: parts, rest)
    | rest => some ([part], rest)

end Graft.Toml
