import SymbolicCalculus.Decimal.Integer
import SymbolicCalculus.Decimal.Shortest

/-!
# Formats of a double

Three forms are written: the general form of messages and answers, the
scientific form with a fixed number of digits, and the form of numbers in JSON.
-/

set_option autoImplicit false

namespace SymbolicCalculus.Decimal

def mantissa : List Char → List Char
  | [] => []
  | [d] => [d]
  | d :: ds => d :: '.' :: ds

def positional (d : Digits) : List Char :=
  if d.exponent < 0 then
    '0' :: '.' :: List.replicate (-d.exponent - 1).toNat '0' ++ d.digits
  else
    let whole := d.exponent.toNat + 1
    let front := d.digits.take whole
    let back := d.digits.drop whole
    let front := front ++ List.replicate (whole - front.length) '0'
    if back.isEmpty then front else front ++ '.' :: back

def exponentPart (width : Nat) (x : Int) : List Char :=
  let ds := Nat.toDigits 10 x.natAbs
  'e' :: (if x < 0 then '-' else '+') :: List.replicate (width - ds.length) '0' ++ ds

structure Style where
  /-- Is a value with this decimal exponent written positionally? -/
  isPositional : Int → Bool
  exponentWidth : Nat

def Style.write (style : Style) (d : Digits) : List Char :=
  if style.isPositional d.exponent then positional d
  else mantissa d.digits ++ exponentPart style.exponentWidth d.exponent

/-- Positional from `0.0001` to below a million; exponents have two digits. -/
def generalStyle : Style :=
  ⟨fun x => -4 ≤ x && x < 6, 2⟩

/-- Positional from `0.000001` to below `10^21`; exponents have no leading zero. -/
def jsonStyle : Style :=
  ⟨fun x => -6 ≤ x && x < 21, 1⟩

def write (digits : Nat → Int → Digits) (text : Digits → List Char) (x : Float) : String :=
  match Binary64.ofFloat x with
  | .nan => "NaN"
  | .infinite negative => if negative then "-Inf" else "+Inf"
  | .finite negative m q =>
    String.ofList ((if negative then ['-'] else []) ++ text (digits m q))

def shortestOrZero (m : Nat) (q : Int) : Digits :=
  if m = 0 then ⟨['0'], 0⟩ else shortest m q

def general (x : Float) : String :=
  write shortestOrZero generalStyle.write x

def scientific (places : Nat) (x : Float) : String :=
  write (rounded places) (fun d => mantissa d.digits ++ exponentPart 2 d.exponent) x

def json (x : Float) : String :=
  write shortestOrZero jsonStyle.write x

/-- The double nearest to `m * 10^e`, infinite beyond the largest. An exponent so
large or so small that the digits cannot matter is cut first. -/
def nearestFloat (m : Nat) (e : Int) : Float :=
  if m = 0 then 0
  else
    let top := e + (Nat.toDigits 10 m).length
    if 400 < top then 1 / 0
    else if top < -400 then 0
    else Float.ofScientific m (e < 0) e.natAbs

end SymbolicCalculus.Decimal
