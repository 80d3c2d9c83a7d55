/-!
# Cutting a text at separators

`pieces` cuts a list of characters at every separator and keeps the empty pieces, so that a text
with `n` separators has `n + 1` pieces. `words` keeps the pieces that are not empty.
-/

namespace Graft.Text

/-- The pieces between separators, empty ones included; there is always at least one. -/
def pieces (isSeparator : Char → Bool) : List Char → List (List Char)
  | [] => [[]]
  | c :: rest =>
    if isSeparator c then [] :: pieces isSeparator rest
    else match pieces isSeparator rest with
      | [] => [[c]]
      | piece :: more => (c :: piece) :: more

/-- The pieces between separators that hold a character. -/
def words (isSeparator : Char → Bool) (text : List Char) : List (List Char) :=
  (pieces isSeparator text).filter fun piece => !piece.isEmpty

@[simp] theorem pieces_nil (isSeparator : Char → Bool) : pieces isSeparator [] = [[]] := rfl

theorem pieces_ne_nil (isSeparator : Char → Bool) (text : List Char) :
    pieces isSeparator text ≠ [] := by
  cases text with
  | nil => simp
  | cons c rest =>
    rw [pieces]
    split
    · simp
    · split <;> simp

@[simp] theorem words_nil (isSeparator : Char → Bool) : words isSeparator [] = [] := rfl

end Graft.Text
