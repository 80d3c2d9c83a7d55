import Graft.Path

/-!
# Names of files

To the system the name of a file is a row of bytes. It need not be the encoding of a text, so in
general names are of type `RawName`. In a file system whose names are known to be texts, texts
serve as names. `FileName` is what a walk over files asks of either: the bytes, which tell names
apart and put them in order, and the stem and the extension, as far as these are texts.
-/

namespace Graft

/-- Names of files. -/
class FileName (ν : Type) where
  bytes : ν → List UInt8
  /-- The stem of a name, if it is a text. -/
  stem? : ν → Option String
  /-- The extension of a name, if there is one and it is a text. -/
  extension? : ν → Option String
  eq_of_bytes : ∀ {a b : ν}, bytes a = bytes b → a = b

instance : FileName String where
  bytes := Text.bytes
  stem? name := some (Path.cutName name).1
  extension? name := (Path.cutName name).2
  eq_of_bytes := Text.bytes_inj.mp

/-- A name as the system holds it. -/
structure RawName where
  bytes : List UInt8
deriving DecidableEq, Repr

namespace RawName

/-- The bytes of the stem and of the extension. -/
def cut (name : RawName) : List UInt8 × Option (List UInt8) := Path.cutAt '.'.toUInt8 name.bytes

end RawName

instance : FileName RawName where
  bytes := RawName.bytes
  stem? name := Text.ofBytes? name.cut.1
  extension? name := name.cut.2.bind Text.ofBytes?
  eq_of_bytes := by
    rintro ⟨a⟩ ⟨b⟩ rfl
    rfl

end Graft
