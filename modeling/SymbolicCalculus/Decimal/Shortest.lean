import SymbolicCalculus.Decimal.Binary64

/-!
# Decimal digits of a double

A positive double is the exact fraction `num / den`. `shortest` gives the fewest
digits that read back to it, and among those the nearest; `rounded` gives a
chosen number of digits of the exact value. In both an exact tie goes to the
even digit.
-/

set_option autoImplicit false

namespace SymbolicCalculus.Decimal

/-- Decimal digits and the power of ten of the first: `digits = [3, 1, 4]` and
`exponent = 0` is 3.14. -/
structure Digits where
  digits : List Char
  exponent : Int
  deriving DecidableEq, Repr

def Digits.ofScaled (n : Nat) (k : Int) : Digits :=
  let ds := Nat.toDigits 10 n
  let kept := (ds.reverse.dropWhile (· = '0')).reverse
  ⟨if kept.isEmpty then ['0'] else kept, if n = 0 then 0 else k + ds.length - 1⟩

/-- The largest `x` with `10^x ≤ num / den`, for positive arguments. -/
def decimalExponent (num den : Nat) : Int :=
  if den ≤ num then (Nat.toDigits 10 (num / den)).length - 1
  else
    let d := (Nat.toDigits 10 (den / num)).length
    if den ≤ num * Nat.pow 10 (d - 1) then -((d : Int) - 1) else -(d : Int)

/-- The reals that read as one double: from `low / den` to `high / den` with the
double itself at `mid / den`; the ends belong to it if `closed`. -/
structure Interval where
  low : Nat
  mid : Nat
  high : Nat
  den : Nat
  closed : Bool
  deriving DecidableEq, Repr

/-- The interval of `m * 2^q`. Below a power of two the next double is half as
far away. -/
def Interval.ofFinite (m : Nat) (q : Int) : Interval :=
  let up := Nat.pow 2 (q - 2).toNat
  let low := if m = Nat.pow 2 52 ∧ -1074 < q then 4 * m - 1 else 4 * m - 2
  ⟨low * up, 4 * m * up, (4 * m + 2) * up, Nat.pow 2 (2 - q).toNat, m % 2 = 0⟩

def Interval.contains (i : Interval) (c : Nat) (k : Int) : Bool :=
  let point := c * Nat.pow 10 k.toNat * i.den
  let scale := Nat.pow 10 (-k).toNat
  if i.closed then i.low * scale ≤ point && point ≤ i.high * scale
  else i.low * scale < point && point < i.high * scale

/-- The multiple of `10^k` in the interval that is nearest to its double, if any:
one of the two neighbours of the double. -/
def Interval.nearest? (i : Interval) (k : Int) : Option Nat :=
  let top := i.mid * Nat.pow 10 (-k).toNat
  let unit := i.den * Nat.pow 10 k.toNat
  let c := top / unit
  let twice := 2 * (top % unit)
  let takeLower := twice < unit || (twice = unit && c % 2 = 0)
  match i.contains c k, i.contains (c + 1) k with
  | true, true => some (if takeLower then c else c + 1)
  | true, false => some c
  | false, true => some (c + 1)
  | false, false => none

/-- The fewest digits that read back to `m * 2^q`; 17 always do. -/
def shortest (m : Nat) (q : Int) : Digits :=
  let i := Interval.ofFinite m q
  let x := decimalExponent i.mid i.den
  let attempt (n : Nat) : Option Digits :=
    let k := x - n + 1
    (i.nearest? k).map fun c => .ofScaled c k
  ((List.range' 1 17).findSome? attempt).getD (.ofScaled 0 0)

/-- The quotient of two numbers to the nearest integer, a tie to the even one. -/
def roundedQuotient (num den : Nat) : Nat :=
  let q := num / den
  let twice := 2 * (num % den)
  if den < twice ∨ (twice = den ∧ q % 2 = 1) then q + 1 else q

def rounded (n m : Nat) (q : Int) : Digits :=
  if m = 0 then ⟨List.replicate (n + 1) '0', 0⟩
  else
    let num := m * Nat.pow 2 q.toNat
    let den := Nat.pow 2 (-q).toNat
    let x := decimalExponent num den
    let k := x - n
    let c := roundedQuotient (num * Nat.pow 10 (-k).toNat) (den * Nat.pow 10 k.toNat)
    let ds := Nat.toDigits 10 c
    if ds.length = n + 2 then ⟨ds.dropLast, x + 1⟩ else ⟨ds, x⟩

end SymbolicCalculus.Decimal
