import SymbolicCalculus.Expr.Basic

/-!
# The vocabulary of functions

Eighteen functions of one argument, the constant pi as a call without arguments,
and the power as a call of two. A call that fits the vocabulary can be viewed as
an `Application`, which names the function and holds exactly its arguments.
-/

set_option autoImplicit false

namespace SymbolicCalculus

inductive Unary where
  | sin | cos | tan
  | asin | acos | atan
  | sinh | cosh | tanh
  | asinh | acosh | atanh
  | exp | expm1
  | log | log10 | log1p
  | sqrt
  deriving DecidableEq, Repr

def Unary.name : Unary → String
  | .sin => "sin"
  | .cos => "cos"
  | .tan => "tan"
  | .asin => "asin"
  | .acos => "acos"
  | .atan => "atan"
  | .sinh => "sinh"
  | .cosh => "cosh"
  | .tanh => "tanh"
  | .asinh => "asinh"
  | .acosh => "acosh"
  | .atanh => "atanh"
  | .exp => "exp"
  | .expm1 => "expm1"
  | .log => "log"
  | .log10 => "log10"
  | .log1p => "log1p"
  | .sqrt => "sqrt"

inductive Function where
  | unary (f : Unary)
  | pi
  | pow
  deriving DecidableEq, Repr

namespace Function

def name : Function → String
  | .unary f => f.name
  | .pi => "pi"
  | .pow => "pow"

def arity : Function → Nat
  | .unary _ => 1
  | .pi => 0
  | .pow => 2

def all : List Function :=
  [.unary .acos, .unary .acosh, .unary .asin, .unary .asinh, .unary .atan, .unary .atanh,
    .unary .cos, .unary .cosh, .unary .exp, .unary .expm1, .unary .log, .unary .log10,
    .unary .log1p, .pi, .pow, .unary .sin, .unary .sinh, .unary .sqrt, .unary .tan, .unary .tanh]

def ofName? (name : String) : Option Function :=
  all.find? fun f => f.name = name

end Function

/-- A function together with as many arguments as it takes. The arguments may be
anything that stands for one: a tree, its derivative, its value. -/
inductive Application (α : Type) where
  | pi
  | unary (f : Unary) (u : α)
  | pow (base exponent : α)

/-- The application of a function to a list of the right length. -/
def Function.apply? {α : Type} : Function → List α → Option (Application α)
  | .pi, [] => some .pi
  | .unary f, [u] => some (.unary f u)
  | .pow, [b, e] => some (.pow b e)
  | _, _ => none

end SymbolicCalculus
