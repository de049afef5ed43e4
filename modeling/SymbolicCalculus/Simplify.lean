import SymbolicCalculus.Checked
import SymbolicCalculus.Error

/-!
# Simplification

Children first, then one local rule on the simplified children. A rule that
builds a node of another kind goes through the rule of that kind. Integers are
folded only where the exact result fits a word. No terms are collected across a
sum; only `k*t` and `m*t` that stand side by side are folded.
-/

set_option autoImplicit false

namespace SymbolicCalculus

inductive PowerForm where
  | node
  | call
  deriving DecidableEq, Repr

def PowerForm.build : PowerForm → Expr → Expr → Expr
  | .node, b, e => .pow b e
  | .call, b, e => .call "pow" [b, e]

namespace Expr

/-! ## Local rules

The operands are already simplified. -/

def integers? : Expr → Expr → Option (Int64 × Int64)
  | .num a, .num b => some (a, b)
  | _, _ => none

def negation : Expr → Expr
  | .neg x => x
  | .num v => if v = Int64.minValue then .neg (.num v) else .num (-v)
  | x => .neg x

/-- A product. A coefficient in front of another coefficient is multiplied into
it as long as the result fits. -/
def product (l r : Expr) : Expr :=
  if l.isZero || r.isZero then .num 0
  else if l.isUnity then r
  else if r.isUnity then l
  else
    match l, r with
    | .num a, .num b =>
      match Checked.mul a b with
      | some p => .num p
      | none => .mul (.num a) (.num b)
    | .num a, .mul (.num b) t =>
      match Checked.mul a b with
      | some p => product (.num p) t
      | none => .mul (.num a) (.mul (.num b) t)
    | l, r => .mul l r
termination_by structural r

def coefficient : Expr → Int64 × Expr
  | .mul (.num k) t => (k, t)
  | e => (1, e)

def likeTerms (fold : Int64 → Int64 → Option Int64) (l r : Expr) : Option (Int64 × Expr) :=
  if l.isInteger || r.isInteger then none
  else if (coefficient l).2 = (coefficient r).2 then
    (fold (coefficient l).1 (coefficient r).1).map fun c => (c, (coefficient l).2)
  else none

/-- What sums and differences share: integers are folded, then like terms. -/
def combine (op : Operator) (fold : Int64 → Int64 → Option Int64) (l r : Expr) : Expr :=
  match integers? l r with
  | some (a, b) =>
    match fold a b with
    | some c => .num c
    | none => .binary op l r
  | none =>
    match likeTerms fold l r with
    | some (c, t) => product (.num c) t
    | none => .binary op l r

def sum (l r : Expr) : Expr :=
  if r.isZero then l
  else if l.isZero then r
  else combine .add Checked.add l r

def difference (l r : Expr) : Expr :=
  if l.isZero then negation r
  else if r.isZero then l
  else combine .sub Checked.sub l r

/-- A quotient. A zero divisor is refused before a zero numerator is noticed. -/
def quotient (l r : Expr) : Except Fault Expr :=
  if r.isZero then .error ⟨.zeroDivisor, .div l r⟩
  else if l.isZero then .ok (.num 0)
  else if r.isUnity then .ok l
  else
    match integers? l r with
    | some (a, b) =>
      match Checked.divExact a b with
      | some q => .ok (.num q)
      | none => .ok (.div l r)
    | none => .ok (.div l r)

def integerPower? : Expr → Expr → Option (Int64 × Nat)
  | .num a, .num b => if b < 0 then none else some (a, b.toInt.toNat)
  | _, _ => none

/-- A power. The base may itself be a power in either form, and then the
exponents are multiplied. -/
def power (form : PowerForm) (l r : Expr) : Except Fault Expr :=
  if l.isZero then
    if r.isZero then .error ⟨.zeroToZero, form.build l r⟩
    else if r.isNegative then .error ⟨.zeroToNegative, form.build l r⟩
    else .ok (.num 0)
  else if l.isUnity || r.isZero then .ok (.num 1)
  else if r.isUnity then .ok l
  else
    match integerPower? l r with
    | some (a, n) =>
      match Checked.pow a n with
      | some p => .ok (.num p)
      | none => .ok (form.build l r)
    | none =>
      match l with
      | .pow b e => power form b (product e r)
      | .call "pow" [b, e] => power form b (product e r)
      | l => .ok (form.build l r)
termination_by structural l

/-! ## The engine -/

def applyRule (op : Operator) (l r : Expr) : Except Fault Expr :=
  match op with
  | .add => .ok (sum l r)
  | .sub => .ok (difference l r)
  | .mul => .ok (product l r)
  | .div => quotient l r
  | .pow => power .node l r

mutual
def reduce : Expr → Except Fault Expr
  | .missing => .error .noExpression
  | .num v => .ok (.num v)
  | .sym name => .ok (.sym name)
  | .binary op l r => do
    let l ← reduce l
    let r ← reduce r
    applyRule op l r
  | .neg x => do
    let x ← reduce x
    .ok (negation x)
  | .call name args => do
    let reduced ← reduceAll args
    if name = "pow" then
      match reduced with
      | [b, e] => power .call b e
      | _ => .error ⟨.wrongArity .pow args.length, .call name args⟩
    else .ok (.call name reduced)
  | .stmt x => do
    let x ← reduce x
    .ok (.stmt x)
def reduceAll : List Expr → Except Fault (List Expr)
  | [] => .ok []
  | a :: as => do
    let a ← reduce a
    let as ← reduceAll as
    .ok (a :: as)
end

end Expr

def simplify (e : Expr) : Except Error Expr :=
  e.reduce.mapError fun f => .during .simplifying (.fault f)

end SymbolicCalculus
