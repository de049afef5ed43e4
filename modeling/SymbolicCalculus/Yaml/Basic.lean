import SymbolicCalculus.Decimal.Format
import SymbolicCalculus.Decimal.Radix

/-!
# YAML nodes and plain scalars

A configuration document is a tree of mappings with scalars at its leaves. What a
scalar stands for depends on whether it was quoted: only a plain one may be null,
a truth value or a number.
-/

set_option autoImplicit false

namespace SymbolicCalculus.Yaml

inductive Node where
  | scalar (quoted : Bool) (text : String)
  | mapping (entries : List (String × Node))
  deriving Inhabited

/-- Why there is no node: the text holds no document, or it cannot be read. -/
inductive Error where
  | noDocument
  | malformed
  deriving DecidableEq, Repr

inductive Value where
  | null
  | bool (b : Bool)
  | int (i : Int)
  | float (x : Float)
  | text (s : String)

def word? : String → Option Value
  | "" | "~" | "null" | "Null" | "NULL" => some .null
  | "true" | "True" | "TRUE" => some (.bool true)
  | "false" | "False" | "FALSE" => some (.bool false)
  | ".nan" | ".NaN" | ".NAN" => some (.float (0 / 0))
  | ".inf" | ".Inf" | ".INF" | "+.inf" | "+.Inf" | "+.INF" => some (.float (1 / 0))
  | "-.inf" | "-.Inf" | "-.INF" => some (.float (-1 / 0))
  | _ => none

def integer? (cs : List Char) : Option Int :=
  match Decimal.toRadixInt cs with
  | .ok i => some i
  | .error _ =>
    match Decimal.splitRadix cs with
    | (base, c :: digits) =>
      match Decimal.readRadix base 0 (c :: digits) with
      | .ok n => some n
      | .error _ => none
    | _ => none

def exponent? : List Char → Option Int
  | [] => some 0
  | c :: cs =>
    if c = 'e' || c = 'E' then
      let (negative, digits) := Decimal.splitSign cs
      (Decimal.toNat? digits).map fun n => if negative then -(n : Int) else n
    else none

/-- A decimal fraction with an optional exponent: digits before the point, after
it or both. It must not be too large for a double. -/
def float? (cs : List Char) : Option Float :=
  let (negative, body) := Decimal.splitSign cs
  let whole := body.takeWhile Char.isDigit
  let rest := body.dropWhile Char.isDigit
  let (fraction, rest) :=
    match rest with
    | '.' :: more => (more.takeWhile Char.isDigit, more.dropWhile Char.isDigit)
    | more => ([], more)
  match Decimal.toNat? (whole ++ fraction), exponent? rest with
  | some n, some e =>
    let x := Decimal.nearestFloat n (e - fraction.length)
    if x.isFinite then some (if negative then -x else x) else none
  | _, _ => none

def number? (s : String) : Option Value :=
  match s.toList with
  | '.' :: cs => (float? ('.' :: cs)).map .float
  | c :: cs =>
    if c.isDigit || c = '+' || c = '-' then
      let plain := (c :: cs).filter (· ≠ '_')
      match integer? plain with
      | some i => some (.int i)
      | none => (float? plain).map .float
    else none
  | [] => none

def resolve (quoted : Bool) (s : String) : Value :=
  if quoted then .text s
  else
    match word? s with
    | some v => v
    | none =>
      match number? s with
      | some v => v
      | none => .text s

/-- Only a plain scalar can be null. -/
def Node.isNull : Node → Bool
  | .mapping _ => false
  | .scalar quoted s =>
    match resolve quoted s with
    | .null => true
    | _ => false

end SymbolicCalculus.Yaml
