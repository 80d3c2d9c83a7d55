/-!
# What can be wrong with the text of a unit

Each fault has the place of the first character that cannot stand where it stands, or of the end
of the text where something is missing.
-/

namespace Graft.Sexp

/-- Why a text is not the text of a unit. -/
inductive Fault where
  /-- A character outside every list that starts neither a list nor a comment. -/
  | outsideList
  | noHead
  /-- A character that starts no element of a list. -/
  | unexpected (c : Char)
  | unclosedList
  | unterminatedString
  | unfinishedEscape
  | tooDeep
deriving DecidableEq, Repr

def Fault.message : Fault → String
  | .outsideList => "expected '(' or a comment at top level"
  | .noHead => "expected list head symbol"
  | .unexpected c => "unexpected '" ++ String.singleton c ++ "'"
  | .unclosedList => "unclosed list"
  | .unterminatedString => "unterminated string"
  | .unfinishedEscape => "expected escape character"
  | .tooDeep => "lists nested too deeply"

end Graft.Sexp
