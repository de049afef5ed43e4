/-!
# Integers in decimal digits

Writing an integer with a leading minus where it is negative, and reading one
with an optional sign followed by at least one digit and nothing else.
-/

set_option autoImplicit false

namespace SymbolicCalculus.Decimal

def ofNat (n : Nat) : String :=
  String.ofList (Nat.toDigits 10 n)

def ofInt (i : Int) : String :=
  if i < 0 then "-" ++ ofNat i.natAbs else ofNat i.natAbs

def readDigits (acc : Nat) : List Char → Option Nat
  | [] => some acc
  | c :: cs => if c.isDigit then readDigits (acc * 10 + (c.toNat - 48)) cs else none

def toNat? : List Char → Option Nat
  | [] => none
  | cs => readDigits 0 cs

def toInt? (s : String) : Option Int :=
  match s.toList with
  | '-' :: cs => (toNat? cs).map fun n => -(n : Int)
  | '+' :: cs => (toNat? cs).map Int.ofNat
  | cs => (toNat? cs).map Int.ofNat

/-- The integers of a 64-bit word. -/
def fitsWord (i : Int) : Bool :=
  Int64.minValue.toInt ≤ i && i ≤ Int64.maxValue.toInt

def toWord? (s : String) : Option Int64 :=
  match toInt? s with
  | some i => if fitsWord i then some (Int64.ofInt i) else none
  | none => none

end SymbolicCalculus.Decimal
