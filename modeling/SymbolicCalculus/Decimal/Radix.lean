import SymbolicCalculus.Decimal.Integer

/-!
# Integers with a base mark

An integer may begin with `0x`, `0o` or `0b` for another base, and a bare leading
zero means octal. Between digits single underscores may stand.
-/

set_option autoImplicit false

namespace SymbolicCalculus.Decimal

inductive WordError where
  | syntaxError
  | outOfRange
  deriving DecidableEq, Repr

def digitOf? (c : Char) : Option Nat :=
  if c.isDigit then some (c.toNat - 48)
  else if 'a' ≤ c && c ≤ 'z' then some (c.toNat - 87)
  else if 'A' ≤ c && c ≤ 'Z' then some (c.toNat - 55)
  else none

/-- Digits of a base, underscores skipped. The first digit that takes the value
out of 64 bits ends the reading. -/
def readRadix (base acc : Nat) : List Char → Except WordError Nat
  | [] => .ok acc
  | '_' :: cs => readRadix base acc cs
  | c :: cs =>
    match digitOf? c with
    | none => .error .syntaxError
    | some d =>
      if base ≤ d then .error .syntaxError
      else if Nat.pow 2 64 ≤ acc * base + d then .error .outOfRange
      else readRadix base (acc * base + d) cs

def splitRadix : List Char → Nat × List Char
  | '0' :: mark :: c :: cs =>
    if mark = 'b' || mark = 'B' then (2, c :: cs)
    else if mark = 'o' || mark = 'O' then (8, c :: cs)
    else if mark = 'x' || mark = 'X' then (16, c :: cs)
    else (8, mark :: c :: cs)
  | '0' :: cs => (8, cs)
  | cs => (10, cs)

/-- Is every underscore between two digits, or between a base mark and a digit? -/
def underscoresSeparate (afterDigit : Bool) : List Char → Bool
  | [] => true
  | ['_'] => false
  | '_' :: cs => afterDigit && underscoresSeparate false cs
  | _ :: cs => underscoresSeparate true cs

/-- Do the underscores of an unsigned integer stand where they may? -/
def underscoresFit : List Char → Bool
  | '0' :: mark :: cs =>
    if mark.toLower = 'b' || mark.toLower = 'o' || mark.toLower = 'x' then
      underscoresSeparate true cs
    else underscoresSeparate false ('0' :: mark :: cs)
  | cs => underscoresSeparate false cs

def splitSign : List Char → Bool × List Char
  | '-' :: cs => (true, cs)
  | '+' :: cs => (false, cs)
  | cs => (false, cs)

def toRadixInt (cs : List Char) : Except WordError Int :=
  let (negative, body) := splitSign cs
  if body.isEmpty then .error .syntaxError
  else
    let (base, digits) := splitRadix body
    match readRadix base 0 digits with
    | .error e => .error e
    | .ok n =>
      if !underscoresFit body then .error .syntaxError
      else if negative then if n ≤ Nat.pow 2 63 then .ok (-(n : Int)) else .error .outOfRange
      else if n < Nat.pow 2 63 then .ok n
      else .error .outOfRange

end SymbolicCalculus.Decimal
