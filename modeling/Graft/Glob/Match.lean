import Graft.Glob.Comparison
import Graft.Text.Pieces

/-!
# Matching paths

A pattern is compared with the bytes of a path. While it is compared, every place of the path
carries a mark that says whether the part of the pattern that was read so far can stand for the
bytes before that place. At first only the start is marked, and `Expression.reach` moves the marks
on over one expression. The pattern stands for the path if the end is marked at last.

There is one mark more than there are bytes, so the work grows with the length of the pattern times
the length of the path.
-/

namespace Graft.Glob

/-- Move every mark over the byte after it, where the byte is wanted. -/
def advance (isWanted : UInt8 → Bool) (text : List UInt8) (marks : List Bool) : List Bool :=
  false :: List.zipWith (fun b mark => mark && isWanted b) text marks

/-- Mark every place after a marked one, `seen` saying whether there was one before. -/
def spread : (seen : Bool) → (marks : List Bool) → List Bool
  | _, [] => []
  | seen, mark :: marks => (seen || mark) :: spread (seen || mark) marks

/-- Mark the places that one or the other list marks. -/
def either (marks others : List Bool) : List Bool := List.zipWith (· || ·) marks others

mutual

/-- The marks after an expression. -/
def Expression.reach (text : List UInt8) : Expression → List Bool → List Bool
  | .byte b, marks => advance (· == b) text marks
  | .any, marks => advance (fun _ => true) text marks
  | .many, marks => spread false marks
  | .optional b, marks => either marks (advance (· == b) text marks)
  | .oneOf negated ranges, marks => advance (inClass negated ranges) text marks
  | .group choices, marks => reachAny text choices marks

/-- The marks after a sequence of expressions. -/
def reachAll (text : List UInt8) : List Expression → List Bool → List Bool
  | [], marks => marks
  | e :: es, marks => reachAll text es (e.reach text marks)

/-- The marks after one of several sequences. -/
def reachAny (text : List UInt8) : List (List Expression) → List Bool → List Bool
  | [], marks => marks.map fun _ => false
  | c :: cs, marks => either (reachAll text c marks) (reachAny text cs marks)

end

/-- Whether a sequence of expressions stands for a text. -/
def accepts (sequence : List Expression) (text : List UInt8) : Bool :=
  (reachAll text sequence (true :: List.replicate text.length false)).getLast?.getD false

/-- Whether the last piece of a path is `..`. -/
def endsUp (path : List UInt8) : Bool :=
  path.reverse.takeWhile (· ≠ '/'.toUInt8) = ['.'.toUInt8, '.'.toUInt8]

/-- Whether a pattern stands for a path, which is given by its bytes. -/
def isMatch (tokens : List Token) (path : List UInt8) : Bool :=
  !((comparison tokens).asksForName && endsUp path) && accepts (expressions tokens) path

end Graft.Glob
