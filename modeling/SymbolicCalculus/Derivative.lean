import SymbolicCalculus.Simplify

/-!
# Differentiation

The derivative of a tree with respect to one variable, by the textbook rules and
a table of outer factors for the chain rule. The result is not simplified;
higher orders simplify after every pass.
-/

set_option autoImplicit false

namespace SymbolicCalculus

namespace Expr

def square (u : Expr) : Expr := .pow u (.num 2)

def reciprocal (u : Expr) : Expr := .div (.num 1) u

end Expr

def Unary.outer (f : Unary) (u : Expr) : Expr :=
  let apply (g : Unary) (x : Expr) : Expr := .call g.name [x]
  match f with
  | .sin => apply .cos u
  | .cos => .neg (apply .sin u)
  | .tan => (apply .cos u).square.reciprocal
  | .asin => (apply .sqrt (.sub (.num 1) u.square)).reciprocal
  | .acos => .neg (apply .sqrt (.sub (.num 1) u.square)).reciprocal
  | .atan => (Expr.add (.num 1) u.square).reciprocal
  | .sinh => apply .cosh u
  | .cosh => apply .sinh u
  | .tanh => (apply .cosh u).square.reciprocal
  | .asinh => (apply .sqrt (.add u.square (.num 1))).reciprocal
  | .acosh => (apply .sqrt (.sub u.square (.num 1))).reciprocal
  | .atanh => (Expr.sub (.num 1) u.square).reciprocal
  | .exp => apply .exp u
  | .expm1 => apply .exp u
  | .log => u.reciprocal
  | .log10 => (Expr.mul u (apply .log (.num 10))).reciprocal
  | .log1p => (Expr.add (.num 1) u).reciprocal
  | .sqrt => (Expr.mul (.num 2) (apply .sqrt u)).reciprocal

/-- The chain-rule factor of a call. A power has two arguments and so no single
factor. -/
def outerDerivative (name : String) (args : List Expr) : Except Error Expr :=
  match Expr.resolveGiven name args args with
  | .error f => .error (.fault f)
  | .ok .pi => .ok (.num 0)
  | .ok (.unary f u) => .ok (f.outer u)
  | .ok (.pow _ _) => .error (.fault ⟨.noOuterFactor name, .call name args⟩)

namespace Expr

/-- The power rule for `b^e`, given the derivatives of both. The logarithmic part
is there only when the variable occurs in the exponent. -/
def powerRule (form : PowerForm) (v : String) (b e db de : Expr) : Expr :=
  let plain : Expr := .mul (.mul e (form.build b (.sub e (.num 1)))) db
  if e.dependsOn v then
    .add plain (.mul (.mul (form.build b e) (.call "log" [b])) de)
  else plain

def operatorRule (op : Operator) (v : String) (l r dl dr : Expr) : Expr :=
  match op with
  | .add => .add dl dr
  | .sub => .sub dl dr
  | .mul => .add (.mul dl r) (.mul l dr)
  | .div => .div (.sub (.mul dl r) (.mul l dr)) r.square
  | .pow => powerRule .node v l r dl dr

mutual
def derive (v : String) : Expr → Except Fault Expr
  | .missing => .error .noExpression
  | .num _ => .ok (.num 0)
  | .sym name => .ok (.num (if name = v then 1 else 0))
  | .binary op l r => do
    let dl ← derive v l
    let dr ← derive v r
    .ok (operatorRule op v l r dl dr)
  | .neg x => do
    let dx ← derive v x
    .ok (.neg dx)
  | .call name args => do
    match ← resolveGiven name args (deriveEach v args) with
    | .pi => .ok (.num 0)
    | .unary f (u, du) => do
      let du ← du
      .ok (.mul (f.outer u) du)
    | .pow (b, db) (e, de) => do
      let db ← db
      let de ← de
      .ok (powerRule .call v b e db de)
  | .stmt x => do
    let dx ← derive v x
    .ok (.stmt dx)
def deriveEach (v : String) : List Expr → List (Expr × Except Fault Expr)
  | [] => []
  | a :: as => (a, derive v a) :: deriveEach v as
end

end Expr

def differentiate (v : String) (e : Expr) : Except Error Expr :=
  (e.derive v).mapError fun f => .during (.differentiating v) (.fault f)

def differentiateSimplify (v : String) (e : Expr) : Except Error Expr := do
  simplify (← differentiate v e)

def passes (v : String) (done : Nat) : Nat → Expr → Except Error Expr
  | 0, e => .ok e
  | n + 1, e =>
    match differentiateSimplify v e with
    | .error err => .error (.during (.passing (done + 1)) err)
    | .ok d => passes v (done + 1) n d

def differentiateTimes (v : String) (n : Int) (e : Expr) : Except Error Expr :=
  if n < 0 then .error (.negativeOrder n)
  else if e.isMissing then .error (.fault .noExpression)
  else passes v 0 n.toNat e

def differentiateRaw (v : String) : Nat → Expr → Except Error Expr
  | 0, e => .ok e
  | n + 1, e => do differentiateRaw v n (← differentiate v e)

end SymbolicCalculus
