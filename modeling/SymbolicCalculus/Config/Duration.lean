import SymbolicCalculus.Decimal.Integer

/-!
# Durations

A duration is a sum of numbers with units, such as `1h30m` or `-.5s`, in whole
nanoseconds. It must fit a 64-bit word at every step of the sum. A fraction is
scaled in double precision, and what is less than a nanosecond is cut off.
-/

set_option autoImplicit false

namespace SymbolicCalculus.Duration

def unit? (name : List Char) : Option Nat :=
  match String.ofList name with
  | "ns" => some 1
  | "us" | "µs" | "μs" => some 1000
  | "ms" => some 1000000
  | "s" => some 1000000000
  | "m" => some 60000000000
  | "h" => some 3600000000000
  | _ => none

/-- A number as far as it has been read, and the sum before it. Digits of the
fraction that no longer fit a word are passed over; `scale` is ten to the number
of those that did. -/
structure Term where
  total : Nat
  whole : Nat
  hasWhole : Bool
  fraction : Nat
  scale : Float
  hasFraction : Bool
  full : Bool

inductive Phase where
  | start
  | whole
  | fraction
  | unit (name : List Char)

def limit : Nat := Nat.pow 2 63

def pushWhole (t : Term) (c : Char) : Option Term :=
  let n := t.whole * 10 + (c.toNat - 48)
  if limit / 10 < t.whole || limit < n then none
  else some { t with whole := n, hasWhole := true }

def pushFraction (t : Term) (c : Char) : Term :=
  let n := t.fraction * 10 + (c.toNat - 48)
  if t.full || (limit - 1) / 10 < t.fraction || limit < n then
    { t with hasFraction := true, full := true }
  else { t with fraction := n, scale := t.scale * 10, hasFraction := true }

def emptyTerm (total : Nat) : Term := ⟨total, 0, false, 0, 1, false, false⟩

def addTerm (t : Term) (name : List Char) : Option Nat :=
  match unit? name.reverse with
  | none => none
  | some u =>
    if !t.hasWhole && !t.hasFraction then none
    else if limit / u < t.whole then none
    else
      let part := (Float.ofNat t.fraction * (Float.ofNat u / t.scale)).toUInt64.toNat
      let n := t.whole * u + if t.fraction = 0 then 0 else part
      if limit < n then none
      else if limit < t.total + n then none
      else some (t.total + n)

def isUnitLetter (c : Char) : Bool := !(c = '.' || c.isDigit)

def read (t : Term) (phase : Phase) : List Char → Option Nat
  | [] =>
    match phase with
    | .unit name => addTerm t name
    | _ => none
  | c :: cs =>
    match phase with
    | .start =>
      if c.isDigit then (pushWhole t c).bind fun t => read t .whole cs
      else if c = '.' then read t .fraction cs
      else none
    | .whole =>
      if c.isDigit then (pushWhole t c).bind fun t => read t .whole cs
      else if c = '.' then read t .fraction cs
      else read t (.unit [c]) cs
    | .fraction =>
      if c.isDigit then read (pushFraction t c) .fraction cs
      else if c = '.' then none
      else read t (.unit [c]) cs
    | .unit name =>
      if isUnitLetter c then read t (.unit (c :: name)) cs
      else
        match addTerm t name with
        | none => none
        | some total =>
          let t := emptyTerm total
          if c.isDigit then (pushWhole t c).bind fun t => read t .whole cs
          else read t .fraction cs

def splitSign : List Char → Bool × List Char
  | '-' :: cs => (true, cs)
  | '+' :: cs => (false, cs)
  | cs => (false, cs)

/-- Nanoseconds of a duration. A zero needs no unit. -/
def parse? (s : String) : Option Int :=
  let (negative, body) := splitSign s.toList
  if body = ['0'] then some 0
  else
    match read (emptyTerm 0) .start body with
    | none => none
    | some n =>
      if negative then some (-(n : Int))
      else if n < limit then some n
      else none

end SymbolicCalculus.Duration
