import Graft.Glob.Pattern
import Graft.Text.Quoted

/-!
# Patterns as regular expressions

The meaning of a pattern is that of a regular expression over bytes. `Token.expressions` gives the
expressions that a token stands for. Literal characters become their bytes. A class becomes ranges
of bytes: a range of characters contributes the bytes from the last byte of its first character to
the first byte of its last character, and the other bytes of both characters. Alternatives that
stand for no text are left out of their group, and so is a group without any other.

`depth` counts how deeply an expression nests, and `written` is its usual notation.
-/

namespace Graft.Glob

/-- A regular expression over bytes. A list of expressions stands for their sequence. -/
inductive Expression where
  /-- One given byte. -/
  | byte (b : UInt8)
  /-- One byte. -/
  | any
  /-- Any number of bytes. -/
  | many
  /-- One given byte, or nothing. -/
  | optional (b : UInt8)
  /-- One byte inside the ranges, or outside them. -/
  | oneOf (negated : Bool) (ranges : List (UInt8 × UInt8))
  /-- One of several sequences. -/
  | group (choices : List (List Expression))
deriving Repr

def bytes (c : Char) : List UInt8 := (String.singleton c).toUTF8.toList

def slash : UInt8 := '/'.toUInt8

def single (b : UInt8) : UInt8 × UInt8 := (b, b)

/-- The ranges of bytes that a range of characters contributes to a class. -/
def byteRanges (range : Char × Char) : List (UInt8 × UInt8) :=
  let first := bytes range.1
  let last := bytes range.2
  if range.1 = range.2 then first.map single
  else
    first.dropLast.map single ++ [(first.getLast?.getD 0, last.headD 0)] ++ last.tail.map single

/-- Whether a class of bytes holds a byte. -/
def inClass (negated : Bool) (ranges : List (UInt8 × UInt8)) (b : UInt8) : Bool :=
  (ranges.any fun range => range.1 ≤ b && b ≤ range.2) != negated

mutual

/-- The expressions that a token stands for, in sequence. -/
def Token.expressions : Token → List Expression
  | .literal c => (bytes c).map .byte
  | .any => [.any]
  | .many => [.many]
  | .leadingDirs => [.group [[.optional slash], [.many, .byte slash]]]
  | .trailingDirs => [.byte slash, .many]
  | .innerDirs => [.group [[.byte slash], [.byte slash, .many, .byte slash]]]
  | .oneOf negated ranges => [.oneOf negated (ranges.flatMap byteRanges)]
  | .alternates branches =>
    match choices branches with
    | [] => []
    | c :: cs => [.group (c :: cs)]

/-- The expressions that a list of tokens stands for, in sequence. -/
def sequence : List Token → List Expression
  | [] => []
  | t :: ts => t.expressions ++ sequence ts

/-- The sequences of several alternatives, those that stand for no text left out. -/
def choices : List (List Token) → List (List Expression)
  | [] => []
  | b :: bs =>
    match sequence b with
    | [] => choices bs
    | e :: es => (e :: es) :: choices bs

end

/-- The expressions of a whole pattern. A component `**` alone stands for every text. -/
def expressions : List Token → List Expression
  | [.leadingDirs] => [.many]
  | tokens => sequence tokens

/-! ### Nesting -/

/-- A sequence, or a choice, of a single part is no level of its own. -/
def levels (parts : Nat) : Nat := if parts ≥ 2 then 1 else 0

mutual

/-- How deeply an expression nests: repetitions, classes, groups, choices and sequences count. -/
def Expression.depth : Expression → Nat
  | .byte _ | .any => 0
  | .many | .optional _ => 1
  | .oneOf _ ranges => 1 + levels ranges.length
  | .group choices => 1 + levels choices.length + choicesDepth choices

/-- The depth of the deepest expression of a sequence. -/
def partsDepth : List Expression → Nat
  | [] => 0
  | e :: es => max e.depth (partsDepth es)

/-- The depth of the deepest of several sequences. -/
def choicesDepth : List (List Expression) → Nat
  | [] => 0
  | c :: cs => max (levels c.length + partsDepth c) (choicesDepth cs)

end

/-- How deeply the expression of a whole pattern nests. It is a sequence in any case, since it is
tied to both ends of a text. -/
def depth (tokens : List Token) : Nat := 1 + partsDepth (expressions tokens)

def maxDepth : Nat := 250

/-! ### Notation -/

/-- The characters with a meaning of their own in the notation of expressions. -/
def isOperator (c : Char) : Bool := c ∈ "\\.+*?()|[]\x7b\x7d^$#&-~".toList

/-- A byte in the notation of expressions. -/
def writtenByte (b : UInt8) : String :=
  let c := Char.ofNat b.toNat
  if b > 0x7f then "\\x" ++ Text.hex b.toNat
  else if isOperator c then "\\" ++ String.singleton c
  else String.singleton c

/-- A range of bytes in the notation of expressions. -/
def writtenRange (range : UInt8 × UInt8) : String :=
  if range.1 = range.2 then writtenByte range.1
  else writtenByte range.1 ++ "-" ++ writtenByte range.2

mutual

/-- An expression in the usual notation. -/
def Expression.written : Expression → String
  | .byte b => writtenByte b
  | .any => "."
  | .many => ".*"
  | .optional b => writtenByte b ++ "?"
  | .oneOf negated ranges =>
    "[" ++ (if negated then "^" else "") ++ String.join (ranges.map writtenRange) ++ "]"
  | .group choices => "(?:" ++ writtenChoices choices ++ ")"

/-- A sequence in the usual notation. -/
def writtenParts : List Expression → String
  | [] => ""
  | e :: es => e.written ++ writtenParts es

/-- A choice in the usual notation. -/
def writtenChoices : List (List Expression) → String
  | [] => ""
  | [c] => writtenParts c
  | c :: cs => writtenParts c ++ "|" ++ writtenChoices cs

end

/-- The expression of a whole pattern in the usual notation. -/
def written (tokens : List Token) : String :=
  "(?-u)^" ++ writtenParts (expressions tokens) ++ "$"

end Graft.Glob
