/-!
# The bytes of a text

To the operating system names and paths are rows of bytes. `bytes` is the encoding of a text, and
`ofBytes?` reads a row of bytes as a text, if it is the encoding of one.
-/

namespace Graft.Text

/-- The encoding of a text. -/
def bytes (text : String) : List UInt8 := text.toUTF8.data.toList

/-- The text that bytes are the encoding of. -/
def ofBytes? (row : List UInt8) : Option String := String.fromUTF8? ⟨row.toArray⟩

theorem bytes_inj {a b : String} : bytes a = bytes b ↔ a = b := by
  refine ⟨fun same => ?_, congrArg bytes⟩
  exact String.toByteArray_inj.mp (ByteArray.ext (Array.toList_inj.mp same))

@[simp] theorem bytes_empty : bytes "" = [] := rfl

/-- A text is what its encoding is read as. -/
@[simp] theorem ofBytes?_bytes (text : String) : ofBytes? (bytes text) = some text := by
  have valid : (ByteArray.mk (bytes text).toArray).IsValidUTF8 := text.isValidUTF8
  rw [ofBytes?, String.fromUTF8?, dif_pos valid]
  rfl

end Graft.Text
