/-!
# Names of log levels and formats

The written names by which a program chooses how much is logged, and in which form.
-/

namespace Graft.Logging

/-- How much is logged. -/
inductive Level where
  | trace
  | debug
  | info
  | warn
  | error
deriving DecidableEq, Repr

namespace Level

def standard : Level := .warn

/-- The name a level is chosen by. -/
def name : Level → String
  | .trace => "trace"
  | .debug => "debug"
  | .info => "info"
  | .warn => "warn"
  | .error => "error"

/-- The name a level is shown by. -/
def label : Level → String
  | .trace => "TRACE"
  | .debug => "DEBUG"
  | .info => "INFO"
  | .warn => "WARN"
  | .error => "ERROR"

def all : List Level := [.trace, .debug, .info, .warn, .error]

def ofName? (name : String) : Option Level := all.find? fun l => l.name = name

end Level

/-- The form in which is logged. -/
inductive Format where
  | text
  | json
deriving DecidableEq, Repr

namespace Format

def standard : Format := .text

/-- The name of a format. -/
def name : Format → String
  | .text => "text"
  | .json => "json"

def ofName? (name : String) : Option Format := [Format.text, .json].find? fun f => f.name = name

end Format

end Graft.Logging
