import SymbolicCalculus.Decimal.Integer

/-!
# Addresses to listen on

A host name and a port with a colon between them. The host may be empty or stand
in brackets; its labels are of letters, digits and hyphens, at most 63 each, and
none begins with a hyphen.
-/

set_option autoImplicit false

namespace SymbolicCalculus.HostPort

def split? (cs : List Char) : Option (List Char × List Char) :=
  match cs with
  | '[' :: body =>
    match body.dropWhile (· ≠ ']') with
    | ']' :: ':' :: port => some (body.takeWhile (· ≠ ']'), port)
    | _ => none
  | cs =>
    match cs.dropWhile (· ≠ ':') with
    | ':' :: port => some (cs.takeWhile (· ≠ ':'), port)
    | _ => none

def isPort (cs : List Char) : Bool :=
  match Decimal.toInt? (String.ofList cs) with
  | some n => 1 ≤ n && n ≤ 65535
  | none => false

def isLetterOrDigit (c : Char) : Bool := c.isAlpha || c.isDigit

/-- The labels of a name, where `left` more characters fit into the current one
and `fresh` says that it has none yet. -/
def labels (fresh : Bool) (left : Nat) : List Char → Bool
  | [] => !fresh
  | c :: cs =>
    if fresh then isLetterOrDigit c && labels false 62 cs
    else if c = '.' then labels true 63 cs
    else
      match left with
      | 0 => false
      | left + 1 => (isLetterOrDigit c || c = '-') && labels false left cs

def isHost (cs : List Char) : Bool :=
  cs.isEmpty || labels true 63 cs

def isValid (s : String) : Bool :=
  match split? s.toList with
  | some (host, port) => isHost host && isPort port
  | none => false

end SymbolicCalculus.HostPort
