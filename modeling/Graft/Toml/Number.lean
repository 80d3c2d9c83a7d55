/-!
# Numbers and moments of time

The scalar forms of a TOML document that start with a digit or a sign: integers in four bases,
floats, dates and times of day. A scanner takes its form from the front of a text, and answers
what it took and what is left, or nothing if the form does not stand there.
-/

namespace Graft.Toml

/-- A scanner: it takes something from the front of a text, or fails. -/
abbrev Scan (α : Type) := List Char → Option (α × List Char)

/-- Whether a character is a digit in base 16. -/
def isHexDigit (c : Char) : Bool :=
  c.isDigit || ('a' ≤ c && c ≤ 'f') || ('A' ≤ c && c ≤ 'F')

/-- The value of a digit. -/
def digitValue (c : Char) : Nat :=
  if c.isDigit then c.toNat - 48
  else if 'a' ≤ c ∧ c ≤ 'f' then c.toNat - 87
  else c.toNat - 55

/-- The number that digits stand for. -/
def natOf (base : Nat) (digits : List Char) : Nat :=
  digits.foldl (fun n c => n * base + digitValue c) 0

/-- Digits in which a single underscore may stand between two of them. The underscores are left
out; `before` says whether a digit stands before. -/
def grouped (isDigit : Char → Bool) : (before : Bool) → List Char → Option (List Char × List Char)
  | before, [] => if before then some ([], []) else none
  | before, c :: rest =>
    if isDigit c then (grouped isDigit true rest).map fun (ds, rest) => (c :: ds, rest)
    else if c = '_' ∧ before then
      if rest.head?.any isDigit then grouped isDigit false rest else none
    else if before then some ([], c :: rest)
    else none

/-- A sign, if there is one, and whether it is a minus. -/
def sign : List Char → Bool × List Char
  | '+' :: rest => (false, rest)
  | '-' :: rest => (true, rest)
  | rest => (false, rest)

/-- The digits of a decimal integer: a zero alone, or digits that start with none. -/
def decimalDigits : Scan (List Char)
  | '0' :: rest => some (['0'], rest)
  | text => grouped Char.isDigit false text

/-- The largest magnitude of an integer, one more below zero. -/
def maxInteger : Nat := Nat.pow 2 63 - 1

/-- An integer in a base other than ten, after its mark. -/
def based (base : Nat) (isDigit : Char → Bool) (text : List Char) : Option (Int × List Char) := do
  let (digits, rest) ← grouped isDigit false text
  let n := natOf base digits
  if n ≤ maxInteger then some (n, rest) else none

/-- An integer. -/
def integer : Scan Int
  | '0' :: 'x' :: rest => based 16 isHexDigit rest
  | '0' :: 'o' :: rest => based 8 (fun c => '0' ≤ c && c ≤ '7') rest
  | '0' :: 'b' :: rest => based 2 (fun c => c == '0' || c == '1') rest
  | text => do
    let (negative, digits) := sign text
    let (digits, rest) ← decimalDigits digits
    let n := natOf 10 digits
    if negative then if n ≤ maxInteger + 1 then some (-(n : Int), rest) else none
    else if n ≤ maxInteger then some (n, rest) else none

/-- The exponent of a float. -/
def exponent : Scan Int
  | c :: rest =>
    if c = 'e' ∨ c = 'E' then do
      let (negative, digits) := sign rest
      let (digits, rest) ← grouped Char.isDigit false digits
      let n := natOf 10 digits
      some (if negative then -(n : Int) else n, rest)
    else none
  | [] => none

/-- Whether a positive decimal number is too large for a float of eight bytes: whether
`digits · 10 ^ shift` rounds to more than the largest one. -/
def isTooLarge (digits : List Char) (shift : Int) : Bool :=
  let n := natOf 10 digits
  let length : Int := (Nat.toDigits 10 n).length
  if n = 0 then false
  else if length + shift > 310 then true
  else if length + shift < 300 then false
  else
    let bound := Nat.pow 2 1024 - Nat.pow 2 970
    if shift ≥ 0 then n * Nat.pow 10 shift.toNat ≥ bound
    else n ≥ bound * Nat.pow 10 (-shift).toNat

/-- A float in digits. -/
def decimalFloat (text : List Char) : Option (List Char × List Char) := do
  let (negative, digits) := sign text
  let (whole, rest) ← decimalDigits digits
  let (fraction, power, rest) ← match rest with
    | '.' :: rest => do
      let (fraction, rest) ← grouped Char.isDigit false rest
      match rest with
      | c :: _ =>
        if c = 'e' ∨ c = 'E' then do
          let (power, rest) ← exponent rest
          some (fraction, power, rest)
        else some (fraction, 0, rest)
      | [] => some (fraction, 0, rest)
    | rest => do
      let (power, rest) ← exponent rest
      some ([], power, rest)
  if !negative && isTooLarge (whole ++ fraction) (power - fraction.length) then none
  else some (text.take (text.length - rest.length), rest)

/-- A float that is no number, or no finite one. -/
def specialFloat (text : List Char) : Option (List Char × List Char) :=
  match (sign text).2 with
  | 'i' :: 'n' :: 'f' :: rest => some (['i', 'n', 'f'], rest)
  | 'n' :: 'a' :: 'n' :: rest => some (['n', 'a', 'n'], rest)
  | _ => none

/-- A float. -/
def float (text : List Char) : Option (List Char × List Char) :=
  (decimalFloat text).or (specialFloat text)

/-- Exactly `n` digits. -/
def digits (n : Nat) (text : List Char) : Option (Nat × List Char) :=
  let front := text.take n
  if front.length = n ∧ front.all Char.isDigit then some (natOf 10 front, text.drop n) else none

/-- Exactly `n` digits with a value between two bounds. -/
def digitsIn (n low high : Nat) (text : List Char) : Option (Nat × List Char) := do
  let (v, rest) ← digits n text
  if low ≤ v ∧ v ≤ high then some (v, rest) else none

/-- One given character. -/
def expect (c : Char) : List Char → Option (List Char)
  | d :: rest => if c = d then some rest else none
  | [] => none

def daysIn (year month : Nat) : Nat :=
  if month = 2 then
    if year % 4 = 0 ∧ (year % 100 ≠ 0 ∨ year % 400 = 0) then 29 else 28
  else if month = 4 ∨ month = 6 ∨ month = 9 ∨ month = 11 then 30
  else 31

/-- A date; the answer is what is left after it. -/
def date (text : List Char) : Option (List Char) := do
  let (year, rest) ← digits 4 text
  let rest ← expect '-' rest
  let (month, rest) ← digitsIn 2 1 12 rest
  let rest ← expect '-' rest
  let (_, rest) ← digitsIn 2 1 (daysIn year month) rest
  some rest

/-- A time of day; the answer is what is left after it. -/
def time (text : List Char) : Option (List Char) := do
  let (_, rest) ← digitsIn 2 0 23 text
  let rest ← expect ':' rest
  let (_, rest) ← digitsIn 2 0 59 rest
  let rest ← expect ':' rest
  let (_, rest) ← digitsIn 2 0 60 rest
  match rest with
  | '.' :: c :: more => if c.isDigit then some (more.dropWhile Char.isDigit) else some rest
  | rest => some rest

/-- The distance of a time from universal time; the answer is what is left after it. -/
def offset : List Char → Option (List Char)
  | c :: rest =>
    if c = 'Z' ∨ c = 'z' then some rest
    else if c = '+' ∨ c = '-' then do
      let (_, rest) ← digitsIn 2 0 23 rest
      let rest ← expect ':' rest
      let (_, rest) ← digitsIn 2 0 59 rest
      some rest
    else none
  | [] => none

/-- A time of day after a date and a mark, with an offset if there is one. -/
def timeAfterDate : List Char → Option (List Char)
  | c :: rest =>
    if c = 'T' ∨ c = 't' ∨ c = ' ' then do
      let rest ← time rest
      some ((offset rest).getD rest)
    else none
  | [] => none

/-- A date, a time of day, or both; the answer is what is left after it. -/
def afterMoment (text : List Char) : Option (List Char) :=
  match date text with
  | some rest => some ((timeAfterDate rest).getD rest)
  | none => time text

/-- A date, a time of day, or both. -/
def moment (text : List Char) : Option (List Char × List Char) :=
  (afterMoment text).map fun rest => (text.take (text.length - rest.length), rest)

end Graft.Toml
