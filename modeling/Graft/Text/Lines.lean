/-!
# Lines of a text

A line ends at a line feed, and a carriage return directly before that line feed belongs to the
line ending. What follows the last line feed is a line of its own only when it is not empty; a
carriage return at its end is kept, since no line feed follows it.
-/

namespace Graft.Text

/-- The lines of a text, without their endings. -/
def lines : List Char → List (List Char)
  | [] => []
  | '\n' :: rest => [] :: lines rest
  | '\r' :: '\n' :: rest => [] :: lines rest
  | c :: rest =>
    match lines rest with
    | [] => [[c]]
    | line :: more => (c :: line) :: more

@[simp] theorem lines_nil : lines [] = [] := rfl

@[simp] theorem lines_lineFeed (rest : List Char) : lines ('\n' :: rest) = [] :: lines rest := rfl

/-- The lines of a string, without their endings. -/
def linesOf (text : String) : List String :=
  (lines text.toList).map String.ofList

end Graft.Text
