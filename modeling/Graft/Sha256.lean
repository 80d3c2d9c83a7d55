import Graft.Text.Quoted

/-!
# SHA-256

The hash of a byte sequence: the sequence is filled up to blocks of sixteen words, and each block
is mixed into eight words of state in sixty-four rounds.
-/

namespace Graft.Sha256

/-- The first words of the fractional parts of the cube roots of the first sixty-four primes. -/
def roundConstants : List UInt32 := [
  0x428a2f98, 0x71374491, 0xb5c0fbcf, 0xe9b5dba5, 0x3956c25b, 0x59f111f1, 0x923f82a4, 0xab1c5ed5,
  0xd807aa98, 0x12835b01, 0x243185be, 0x550c7dc3, 0x72be5d74, 0x80deb1fe, 0x9bdc06a7, 0xc19bf174,
  0xe49b69c1, 0xefbe4786, 0x0fc19dc6, 0x240ca1cc, 0x2de92c6f, 0x4a7484aa, 0x5cb0a9dc, 0x76f988da,
  0x983e5152, 0xa831c66d, 0xb00327c8, 0xbf597fc7, 0xc6e00bf3, 0xd5a79147, 0x06ca6351, 0x14292967,
  0x27b70a85, 0x2e1b2138, 0x4d2c6dfc, 0x53380d13, 0x650a7354, 0x766a0abb, 0x81c2c92e, 0x92722c85,
  0xa2bfe8a1, 0xa81a664b, 0xc24b8b70, 0xc76c51a3, 0xd192e819, 0xd6990624, 0xf40e3585, 0x106aa070,
  0x19a4c116, 0x1e376c08, 0x2748774c, 0x34b0bcb5, 0x391c0cb3, 0x4ed8aa4a, 0x5b9cca4f, 0x682e6ff3,
  0x748f82ee, 0x78a5636f, 0x84c87814, 0x8cc70208, 0x90befffa, 0xa4506ceb, 0xbef9a3f7, 0xc67178f2]

/-- The eight words of state. -/
structure Words where
  a : UInt32
  b : UInt32
  c : UInt32
  d : UInt32
  e : UInt32
  f : UInt32
  g : UInt32
  h : UInt32

/-- The first words of the fractional parts of the square roots of the first eight primes. -/
def initial : Words :=
  ⟨0x6a09e667, 0xbb67ae85, 0x3c6ef372, 0xa54ff53a, 0x510e527f, 0x9b05688c, 0x1f83d9ab, 0x5be0cd19⟩

def rotate (x n : UInt32) : UInt32 := (x >>> n) ||| (x <<< (32 - n))

/-- The word that four bytes make, the first byte on top. -/
def word (a b c d : UInt8) : UInt32 :=
  (a.toUInt32 <<< 24) ||| (b.toUInt32 <<< 16) ||| (c.toUInt32 <<< 8) ||| d.toUInt32

/-- The words of a byte sequence; up to three bytes at its end do not count. -/
def words : List UInt8 → List UInt32
  | a :: b :: c :: d :: rest => word a b c d :: words rest
  | _ => []

/-- The bytes that fill a sequence of `length` bytes up to whole blocks: a single set bit, zeros,
and the number of bits as a word of eight bytes. -/
def filler (length : Nat) : List UInt8 :=
  let zeros := (119 - length % 64) % 64
  let bits := 8 * length
  (0x80 : UInt8) :: List.replicate zeros 0 ++
    ([56, 48, 40, 32, 24, 16, 8, 0].map fun shift => UInt8.ofNat (bits >>> shift % 256))

/-- Lengthen a message schedule, kept with the latest word first, by `n` words. -/
def lengthen : (n : Nat) → List UInt32 → List UInt32
  | 0, ws => ws
  | n + 1, ws =>
    let back (i : Nat) : UInt32 := ws.getD (i - 1) 0
    let x := back 15
    let y := back 2
    let s0 := rotate x 7 ^^^ rotate x 18 ^^^ (x >>> 3)
    let s1 := rotate y 17 ^^^ rotate y 19 ^^^ (y >>> 10)
    lengthen n ((back 16 + s0 + back 7 + s1) :: ws)

/-- One round. -/
def round (s : Words) (k : UInt32) (w : UInt32) : Words :=
  let s1 := rotate s.e 6 ^^^ rotate s.e 11 ^^^ rotate s.e 25
  let choice := (s.e &&& s.f) ^^^ ((~~~ s.e) &&& s.g)
  let t1 := s.h + s1 + choice + k + w
  let s0 := rotate s.a 2 ^^^ rotate s.a 13 ^^^ rotate s.a 22
  let majority := (s.a &&& s.b) ^^^ (s.a &&& s.c) ^^^ (s.b &&& s.c)
  ⟨t1 + (s0 + majority), s.a, s.b, s.c, s.d + t1, s.e, s.f, s.g⟩

/-- Mix a block of sixteen words into the state. -/
def mix (s : Words) (block : List UInt32) : Words :=
  let schedule := (lengthen 48 block.reverse).reverse
  let t := (roundConstants.zip schedule).foldl (fun t (k, w) => round t k w) s
  ⟨s.a + t.a, s.b + t.b, s.c + t.c, s.d + t.d, s.e + t.e, s.f + t.f, s.g + t.g, s.h + t.h⟩

/-- Mix `n` blocks, the words of which follow each other. -/
def mixAll : (n : Nat) → Words → List UInt32 → Words
  | 0, s, _ => s
  | n + 1, s, ws => mixAll n (mix s (ws.take 16)) (ws.drop 16)

/-- A word as eight hexadecimal digits. -/
def digits (w : UInt32) : String :=
  let d := Text.hex w.toNat
  String.ofList (List.replicate (8 - d.length) '0') ++ d

/-- The hash of a byte sequence in hexadecimal. -/
def hash (bytes : List UInt8) : String :=
  let ws := words (bytes ++ filler bytes.length)
  let s := mixAll (ws.length / 16) initial ws
  String.join ([s.a, s.b, s.c, s.d, s.e, s.f, s.g, s.h].map digits)

def hashText (text : String) : String := hash text.toUTF8.toList

end Graft.Sha256
