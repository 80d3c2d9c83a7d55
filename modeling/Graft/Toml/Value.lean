/-!
# Values of a settings document

The values that a TOML document can hold. Floats and moments of time are kept as written, since no
setting has such a value. A table that stands in braces is complete unless only dotted keys made
it; `extensible` says which.
-/

namespace Graft.Toml

/-- A value. -/
inductive Value where
  | text (text : String)
  | integer (n : Int)
  | float (written : List Char)
  | moment (written : List Char)
  | flag (b : Bool)
  | list (elements : List Value)
  | table (extensible : Bool) (fields : List (String × Value))
deriving Repr

/-- What a key of a document stands for. -/
inductive Item where
  | value (v : Value)
  /-- A table, `implicit` when no header has named it, `dotted` when dotted keys made it. -/
  | table (implicit : Bool) (dotted : Bool) (fields : List (String × Item))
  /-- Tables under one header each. -/
  | tables (elements : List (List (String × Item)))
deriving Repr

/-- A table of items. -/
structure Table where
  implicit : Bool
  dotted : Bool
  fields : List (String × Item)
deriving Repr

/-- The table without items, as a header names it. -/
def Table.empty : Table := ⟨false, false, []⟩

/-- Set the item of a key. -/
def setField {α : Type} (key : String) (a : α) : List (String × α) → List (String × α)
  | [] => [(key, a)]
  | (k, old) :: rest => if k = key then (k, a) :: rest else (k, old) :: setField key a rest

/-- Why a text is not a document. -/
inductive Fault where
  | malformed
  | duplicate (key : String)
  | tooDeep
deriving DecidableEq, Repr

def Fault.message : Fault → String
  | .malformed => "the text does not follow the format"
  | .duplicate key => "duplicate key `" ++ key ++ "`"
  | .tooDeep => "too many levels"

/-- Values and the parts of a key have to nest less deeply than this. -/
def maxLevels : Nat := 80

end Graft.Toml
