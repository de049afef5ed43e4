import SymbolicCalculus.Decimal.Integer
import SymbolicCalculus.Json.Writer
import SymbolicCalculus.Log.Level

/-!
# Log records

A record has a level, a message and named values, and is written on one line
either as `name=value` pairs or as a JSON object.
-/

set_option autoImplicit false

namespace SymbolicCalculus.Log

inductive Value where
  | text (s : String)
  | int (i : Int)
  | bool (b : Bool)
  deriving DecidableEq, Repr

structure Record where
  level : Level
  message : String
  values : List (String × Value)
  deriving DecidableEq, Repr

/-! ## Pairs -/

def forcesQuotes (c : Char) : Bool :=
  if c.toNat < 128 then c = ' ' || c = '=' || c = '"' || c.toNat < 32
  else c = '\uFFFD' || Text.isBlank c || !Text.isPrintable c

def pairText (s : String) : String :=
  if s = "" || s.toList.any forcesQuotes then Text.quoted s else s

def Value.pairText : Value → String
  | .text s => Log.pairText s
  | .int i => Decimal.ofInt i
  | .bool b => if b then "true" else "false"

def Record.pairs (r : Record) : String :=
  " ".intercalate
    (("level=" ++ r.level.name) :: ("msg=" ++ pairText r.message) ::
      r.values.map fun (name, v) => pairText name ++ "=" ++ v.pairText)

/-! ## Objects -/

def escapedChar (c : Char) : List Char :=
  match c with
  | '"' => ['\\', '"']
  | '\\' => ['\\', '\\']
  | '\n' => ['\\', 'n']
  | '\r' => ['\\', 'r']
  | '\t' => ['\\', 't']
  | '\u2028' | '\u2029' => Json.codeEscape c
  | c => if c.toNat < 32 then Json.codeEscape c else [c]

def objectText (s : String) : String :=
  String.ofList ('"' :: s.toList.flatMap escapedChar ++ ['"'])

def Value.objectText : Value → String
  | .text s => Log.objectText s
  | .int i => Decimal.ofInt i
  | .bool b => if b then "true" else "false"

def Record.object (r : Record) : String :=
  let members :=
    ("level", Value.text r.level.name) :: ("msg", .text r.message) :: r.values
  "\x7b" ++ ",".intercalate (members.map fun (name, v) => objectText name ++ ":" ++ v.objectText) ++
    "\x7d"

/-! ## Loggers -/

/-- Which records are written, in which form, and what every one of them says
after its message. -/
structure Logger where
  threshold : Level
  asObject : Bool
  common : List (String × Value)
  deriving DecidableEq, Repr

def Logger.line (l : Logger) (r : Record) : String :=
  if r.level.severity < l.threshold.severity then ""
  else
    let r := { r with values := l.common ++ r.values }
    (if l.asObject then r.object else r.pairs) ++ "\n"

def Logger.lines (l : Logger) (rs : List Record) : String :=
  String.join (rs.map l.line)

end SymbolicCalculus.Log
