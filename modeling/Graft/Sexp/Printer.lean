import Graft.Text.Lines
import Graft.Tree.SourceUnit

/-!
# Printing a unit

The printed form of a unit depends on its tree and its documentation only. The documentation of
the unit comes first, followed by an empty line. Every item starts on a line of its own under its
documentation, and an empty line separates it from the item before; only a reference without
documentation stands directly below another reference.
-/

namespace Graft.Sexp

/-- A character of a string literal, escaped where reading would take it for something else. -/
def escapeChar : Char → List Char
  | '"' => ['\\', '"']
  | '\\' => ['\\', '\\']
  | '\n' => ['\\', 'n']
  | '\t' => ['\\', 't']
  | c => [c]

mutual

/-- The printed form of a node. The children of a leaf are not printed. -/
def printNode : Node → List Char
  | ⟨.ident, value, _, _, _⟩ => value.toList
  | ⟨.literal, value, _, _, _⟩ => '"' :: value.toList.flatMap escapeChar ++ ['"']
  | ⟨_, head, _, _, children⟩ => '(' :: head.toList ++ printChildren children ++ [')']

/-- The printed form of the elements of a list, a space before each. -/
def printChildren : List Node → List Char
  | [] => []
  | n :: ns => ' ' :: printNode n ++ printChildren ns

end

/-- One comment line. -/
def printDocLine (line : List Char) : List Char :=
  if line.isEmpty then [';', ';', '\n'] else ';' :: ';' :: ' ' :: line ++ ['\n']

/-- A documentation text as comment lines. -/
def printDoc (doc : String) : List Char :=
  (Text.lines doc.toList).flatMap printDocLine

/-- The comment lines of an optional documentation text. -/
def printDoc? : Option String → List Char
  | none => []
  | some doc => printDoc doc

/-- What stands between an item and the one before it. -/
def gap (before : Option Node) (n : Node) : List Char :=
  match before with
  | none => []
  | some m => if m.kind = .reference ∧ n.kind = .reference ∧ n.doc = none then [] else ['\n']

/-- The printed form of the items after `before`. -/
def printItems : (before : Option Node) → List Node → List Char
  | _, [] => []
  | before, n :: ns =>
    gap before n ++ printDoc? n.doc ++ printNode n ++ '\n' :: printItems (some n) ns

/-- The documentation of a unit and the empty line below it. -/
def printHeader : Option String → List Char
  | none => []
  | some doc => printDoc doc ++ ['\n']

/-- The characters of the printed form of a unit. -/
def printChars (u : SourceUnit) : List Char :=
  printHeader u.doc ++ printItems none u.items

def print (u : SourceUnit) : String := String.ofList (printChars u)

end Graft.Sexp
