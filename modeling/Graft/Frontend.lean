import Graft.Error
import Graft.Sexp.Printer
import Graft.Sexp.Reader

/-!
# Frontends

A frontend knows how units of one notation are read and printed, and which files hold them.
Nothing else depends on the notation.
-/

namespace Graft

/-- The reading and printing of units in one notation. -/
structure Frontend where
  /-- The extensions of the files that hold units. -/
  extensions : List String
  parse : Path → String → Except Error SourceUnit
  print : SourceUnit → String

namespace Frontend

/-- Whether an extension is one of the frontend's. -/
def knows (f : Frontend) (extension : Option String) : Bool :=
  extension.any fun e => f.extensions.contains e

/-- Whether a path has one of the frontend's extensions. -/
def canHandle (f : Frontend) (p : Path) : Bool := f.knows p.extension?

end Frontend

/-- The frontend of the parenthesised notation. -/
def Sexp.frontend : Frontend where
  extensions := ["rmc"]
  parse path text :=
    match Sexp.parse path text with
    | .ok u => .ok u
    | .error (offset, fault) =>
      .error (.load path (Position.ofOffset text offset) fault.message)
  print := Sexp.print

end Graft
