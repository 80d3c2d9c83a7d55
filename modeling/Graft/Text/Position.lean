/-!
# Lines and columns

A byte offset into a text resolves to a line and a column, both counted from one. Columns count
characters. An offset past the end resolves to the position just after the last character. An
offset that falls inside a character of several bytes resolves to the position after that
character, since the character starts before the offset.
-/

namespace Graft

/-- A line and a column, both counted from one. -/
structure Position where
  line : Nat
  col : Nat
deriving DecidableEq, Repr

namespace Position

def start : Position := ⟨1, 1⟩

/-- The position after one more character. -/
def advance (p : Position) (c : Char) : Position :=
  if c = '\n' then ⟨p.line + 1, 1⟩ else ⟨p.line, p.col + 1⟩

/-- Walk on over every character that starts before the byte offset `offset`; the next character
starts at byte `here` and has the position `p`. -/
def seek (offset : Nat) : List Char → Nat → Position → Position
  | [], _, p => p
  | c :: rest, here, p =>
    if offset ≤ here then p else seek offset rest (here + c.utf8Size) (p.advance c)

/-- The position of a byte offset in a text. -/
def ofOffset (text : String) (offset : Nat) : Position :=
  seek offset text.toList 0 start

/-- The written form `line:col`. -/
def display (p : Position) : String :=
  toString p.line ++ ":" ++ toString p.col

@[simp] theorem seek_nil (offset here : Nat) (p : Position) : seek offset [] here p = p := rfl

theorem seek_of_le {offset here : Nat} (h : offset ≤ here) (text : List Char) (p : Position) :
    seek offset text here p = p := by
  cases text <;> simp [seek, h]

@[simp] theorem ofOffset_zero (text : String) : ofOffset text 0 = start :=
  seek_of_le (Nat.le_refl 0) _ _

end Position

end Graft
