/-!
# Blank characters

Two notions of blank are in use. A *blank* is any character with the Unicode property
`White_Space`: blanks separate the words of a directive and cannot occur in a symbol. A *layout*
character is one of space, tab, carriage return and line feed: only these may stand between the
elements of a unit. Every layout character is a blank, and not conversely, so a no-break space
inside a list is neither skipped nor part of a symbol.
-/

namespace Graft.Text

/-- The characters with the Unicode property `White_Space`. -/
def isBlank (c : Char) : Bool :=
  let n := c.toNat
  (9 ≤ n && n ≤ 13) || n == 0x20 || n == 0x85 || n == 0xa0 || n == 0x1680 ||
    (0x2000 ≤ n && n ≤ 0x200a) || n == 0x2028 || n == 0x2029 || n == 0x202f || n == 0x205f ||
    n == 0x3000

/-- The four characters that separate the elements of a unit. -/
def isLayout (c : Char) : Bool :=
  c == ' ' || c == '\t' || c == '\r' || c == '\n'

theorem isLayout_iff {c : Char} :
    isLayout c = true ↔ c = ' ' ∨ c = '\t' ∨ c = '\r' ∨ c = '\n' := by
  simp [isLayout, or_assoc]

theorem isBlank_of_isLayout {c : Char} (h : isLayout c = true) : isBlank c = true := by
  rcases isLayout_iff.mp h with rfl | rfl | rfl | rfl <;> decide

end Graft.Text
