import SymbolicCalculus.Error

/-!
# Numeric evaluation

Evaluation in double precision under a binding of variables. A zero divisor and
`0^0` are faults; outside its domain a function gives a NaN or an infinity.
-/

set_option autoImplicit false

namespace SymbolicCalculus

abbrev Environment := String → Option Float

def Environment.bind (v : String) (x : Float) (env : Environment) : Environment :=
  fun name => if name = v then some x else env name

namespace Real64

def log2e : Float := 1.44269504088896340735992468100189214

def log10Of2 : Float := 0.301029995663981195213738894724493027

def pi : Float := 3.14159265358979323846264338327950288

/-- The hyperbolic functions of an argument above 21: the falling exponential is
below half a unit in the last place. -/
def halfExp (x : Float) : Float := Float.exp x * 0.5

def sinh (x : Float) : Float :=
  if x > 21 then halfExp x else if x < -21 then -(halfExp (-x)) else Float.sinh x

def cosh (x : Float) : Float :=
  if x > 21 then halfExp x else if x < -21 then halfExp (-x) else Float.cosh x

/-- `exp x - 1`. Near zero the rounding of `exp x` is compensated by the exact
logarithm of the rounded value. -/
def expm1 (x : Float) : Float :=
  if x == 0 then x
  else if x > 1 || x < -1 then Float.exp x - 1
  else
    let u := Float.exp x
    if u == 1 then x
    else if u - 1 == -1 then -1
    else (u - 1) * x / Float.log u

/-- `log (1 + x)`. Near zero the rounding of `1 + x` is compensated by the ratio
of `x` to what the rounded sum adds. -/
def log1p (x : Float) : Float :=
  if x == 0 then x
  else if x > 1 || x < -0.5 then Float.log (1 + x)
  else
    let u := 1 + x
    if u == 1 then x else Float.log u * x / (u - 1)

/-- The logarithm to base two, as the exponent plus that of the fraction in
`[0.5, 1)`; exact for powers of two. -/
def log2 (x : Float) : Float :=
  if x.isFinite && x != 0 then
    let (fraction, exponent) := x.frExp
    if fraction == 0.5 then Float.ofInt (exponent - 1)
    else Float.log fraction * log2e + Float.ofInt exponent
  else Float.log x

def log10 (x : Float) : Float := log2 x * log10Of2

end Real64

def Unary.value : Unary → Float → Float
  | .sin, x => Float.sin x
  | .cos, x => Float.cos x
  | .tan, x => Float.tan x
  | .asin, x => Float.asin x
  | .acos, x => Float.acos x
  | .atan, x => Float.atan x
  | .sinh, x => Real64.sinh x
  | .cosh, x => Real64.cosh x
  | .tanh, x => Float.tanh x
  | .asinh, x => Float.asinh x
  | .acosh, x => Float.acosh x
  | .atanh, x => Float.atanh x
  | .exp, x => Float.exp x
  | .expm1, x => Real64.expm1 x
  | .log, x => Float.log x
  | .log10, x => Real64.log10 x
  | .log1p, x => Real64.log1p x
  | .sqrt, x => Float.sqrt x

namespace Expr

def powerValue (e : Expr) (b n : Float) : Except Fault Float :=
  if b == 0 && n == 0 then .error ⟨.zeroToZero, e⟩ else .ok (Float.pow b n)

def operatorValue (e : Expr) (op : Operator) (x y : Float) : Except Fault Float :=
  match op with
  | .add => .ok (x + y)
  | .sub => .ok (x - y)
  | .mul => .ok (x * y)
  | .div => if y == 0 then .error ⟨.zeroDivisorValue, e⟩ else .ok (x / y)
  | .pow => powerValue e x y

mutual
def value (env : Environment) : Expr → Except Fault Float
  | .missing => .error .noExpression
  | .num v => .ok v.toFloat
  | .sym name =>
    match env name with
    | some x => .ok x
    | none => .error ⟨.unbound name, .sym name⟩
  | .binary op l r => do
    let x ← value env l
    let y ← value env r
    operatorValue (.binary op l r) op x y
  | .neg x => do
    let x ← value env x
    .ok (-x)
  | .call name args => do
    match ← resolveGiven name args (valueEach env args) with
    | .pi => .ok Real64.pi
    | .unary f x => do
      let x ← x
      .ok (f.value x)
    | .pow b n => do
      let b ← b
      let n ← n
      powerValue (.call name args) b n
  | .stmt x => value env x
def valueEach (env : Environment) : List Expr → List (Except Fault Float)
  | [] => []
  | a :: as => value env a :: valueEach env as
end

end Expr

def evaluate (env : Environment) (e : Expr) : Except Error Float :=
  (e.value env).mapError fun f => .during .evaluating (.fault f)

end SymbolicCalculus
