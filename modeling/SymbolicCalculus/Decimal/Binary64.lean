/-!
# Doubles as exact numbers

A finite double is `± significand * 2^exponent`. Everything said here about a
double is read off its 64 bits and computed with exact integers.
-/

set_option autoImplicit false

namespace SymbolicCalculus.Decimal

inductive Binary64 where
  | nan
  | infinite (negative : Bool)
  | finite (negative : Bool) (significand : Nat) (exponent : Int)
  deriving DecidableEq, Repr

def Binary64.ofBits (bits : Nat) : Binary64 :=
  let negative : Bool := Nat.pow 2 63 ≤ bits
  let exponent : Nat := bits / Nat.pow 2 52 % Nat.pow 2 11
  let fraction := bits % Nat.pow 2 52
  if exponent = 2047 then if fraction = 0 then .infinite negative else .nan
  else if exponent = 0 then .finite negative fraction (-1074)
  else .finite negative (Nat.pow 2 52 + fraction) ((exponent : Int) - 1075)

def Binary64.ofFloat (x : Float) : Binary64 :=
  .ofBits x.toBits.toNat

def Binary64.toInt? : Binary64 → Option Int
  | .finite negative m q =>
    let magnitude? : Option Nat :=
      if 0 ≤ q then some (m * Nat.pow 2 q.toNat)
      else if m % Nat.pow 2 (-q).toNat = 0 then some (m / Nat.pow 2 (-q).toNat)
      else none
    magnitude?.map fun n => if negative then -(n : Int) else n
  | _ => none

def Binary64.truncated? : Binary64 → Option Int
  | .finite negative m q =>
    let n := m * Nat.pow 2 q.toNat / Nat.pow 2 (-q).toNat
    some (if negative then -(n : Int) else n)
  | _ => none

end SymbolicCalculus.Decimal
