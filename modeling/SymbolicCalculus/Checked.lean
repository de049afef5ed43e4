/-!
# Checked arithmetic on 64-bit words

Each operation computes with the wrapping machine word and looks at the wrapped
result to decide whether the exact result fits. `none` stands for a result
outside `[-2^63, 2^63)`, and for a quotient that is not an integer.
-/

set_option autoImplicit false

namespace SymbolicCalculus.Checked

/-- A wrapped sum lies on the wrong side of `a` exactly when it overflowed. -/
def add (a b : Int64) : Option Int64 :=
  let s := a + b
  if (0 < b ∧ s < a) ∨ (b < 0 ∧ a < s) then none else some s

def sub (a b : Int64) : Option Int64 :=
  let d := a - b
  if (0 < b ∧ a < d) ∨ (b < 0 ∧ d < a) then none else some d

/-- A wrapped product is confirmed by dividing it back; the one product whose
division back would itself wrap is refused first. -/
def mul (a b : Int64) : Option Int64 :=
  if a = 0 ∨ b = 0 then some 0
  else if (a = -1 ∧ b = Int64.minValue) ∨ (b = -1 ∧ a = Int64.minValue) then none
  else
    let p := a * b
    if p / b = a then some p else none

def divExact (a b : Int64) : Option Int64 :=
  if b = 0 ∨ (a = Int64.minValue ∧ b = -1) ∨ a % b ≠ 0 then none else some (a / b)

/-- Repeated squaring over the binary digits of `n`, lowest first. The base is
squared only while digits remain. -/
def powLoop : Nat → Int64 → Int64 → Nat → Option Int64
  | 0, acc, _, _ => some acc
  | rounds + 1, acc, base, n =>
    if n = 0 then some acc
    else
      match if n % 2 = 1 then mul acc base else some acc with
      | none => none
      | some acc =>
        if n / 2 = 0 then some acc
        else
          match mul base base with
          | none => none
          | some square => powLoop rounds acc square (n / 2)

/-- `a` to a natural power. An exponent word has at most 63 binary digits, so 63
rounds reach its end. -/
def pow (a : Int64) (n : Nat) : Option Int64 :=
  powLoop 63 1 a n

end SymbolicCalculus.Checked
