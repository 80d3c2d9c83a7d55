import Graft.Text.Hidden

/-!
# Quoted text

The quoted form of a text shows every character: quotation marks stand around it, and a character
that would end the quotation, start an escape or not be seen is escaped. Escapes are a letter for
the common controls and the code point in hexadecimal for all other hidden characters.
-/

namespace Graft.Text

/-- The digits of a number in hexadecimal, in lower case and without leading zeros. -/
def hex (n : Nat) : String := String.ofList (Nat.toDigits 16 n)

/-- A character as it stands in a quoted text. -/
def quoteChar (c : Char) : String :=
  if c = '\x00' then "\\0"
  else if c = '\t' then "\\t"
  else if c = '\r' then "\\r"
  else if c = '\n' then "\\n"
  else if c = '"' then "\\\""
  else if c = '\\' then "\\\\"
  else if isHidden c then "\\u\x7b" ++ hex c.toNat ++ "\x7d"
  else String.singleton c

/-- The quoted form of a text. -/
def quote (text : String) : String :=
  "\"" ++ String.join (text.toList.map quoteChar) ++ "\""

/-- The quoted form of a list of texts. -/
def quoteList (texts : List String) : String :=
  "[" ++ ", ".intercalate (texts.map quote) ++ "]"

end Graft.Text
