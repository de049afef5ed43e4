import SymbolicCalculus.Text.Blank
import SymbolicCalculus.Text.Quoted

/-!
# Levels of log records

A level is read from its name without regard to case and to blanks around it.
-/

set_option autoImplicit false

namespace SymbolicCalculus.Log

inductive Level where
  | debug
  | info
  | warn
  | error
  deriving DecidableEq, Repr

namespace Level

def name : Level → String
  | .debug => "DEBUG"
  | .info => "INFO"
  | .warn => "WARN"
  | .error => "ERROR"

def severity : Level → Int
  | .debug => -4
  | .info => 0
  | .warn => 4
  | .error => 8

/-- The lower case of the characters whose lower case can occur in a name. -/
def lower (c : Char) : Char :=
  if c = '\u0130' then 'i' else if c = '\u212A' then 'k' else c.toLower

def ofName? (s : String) : Option Level :=
  match String.ofList ((Text.trim s.toList).map lower) with
  | "" | "info" => some .info
  | "debug" => some .debug
  | "warn" | "warning" => some .warn
  | "error" => some .error
  | _ => none

def unknownMessage (s : String) : String :=
  "unknown log level " ++ Text.quoted s

end Level

end SymbolicCalculus.Log
