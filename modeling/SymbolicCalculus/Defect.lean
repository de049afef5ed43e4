import SymbolicCalculus.Fault

/-!
# Defects of a tree

A tree is well formed when no operand is missing, no variable has an empty name
and every call fits the vocabulary. `Expr.defects` lists every place where it is
not, a node before its children and the children from left to right.
-/

set_option autoImplicit false

namespace SymbolicCalculus

inductive Step where
  | left
  | right
  | inner
  | argument (index : Nat)
  deriving DecidableEq, Repr

def Step.render : Step → String
  | .left => ".left"
  | .right => ".right"
  | .inner => ".expr"
  | .argument i => ".args[" ++ Decimal.ofNat i ++ "]"

abbrev Path := List Step

def Path.render : Path → String
  | [] => "$"
  | step :: path => Path.render path ++ step.render

inductive Defect where
  | missingOperand (path : Path)
  | emptyName (path : Path)
  | badCall (path : Path) (fault : Fault)
  deriving DecidableEq, Repr

namespace Defect

def path : Defect → Path
  | .missingOperand path | .emptyName path | .badCall path _ => path

def kind : Defect → Kind
  | .missingOperand _ => .missingOperand
  | .emptyName _ => .unsupportedNode
  | .badCall _ fault => fault.kind

def subject : Defect → Expr
  | .missingOperand _ => .missing
  | .emptyName _ => .sym ""
  | .badCall _ fault => fault.subject

def message : Defect → String
  | .missingOperand path => Kind.missingOperand.title ++ ": " ++ path.render ++ " is nil"
  | .emptyName path =>
    Kind.unsupportedNode.title ++ ": " ++ path.render ++ ": empty variable name in "
  | .badCall path fault => path.render ++ ": " ++ fault.message

end Defect

namespace Expr

mutual
def defects (path : Path) : Expr → List Defect
  | .missing => [.missingOperand path]
  | .num _ => []
  | .sym name => if name = "" then [.emptyName path] else []
  | .binary _ l r => defects (.left :: path) l ++ defects (.right :: path) r
  | .neg x | .stmt x => defects (.inner :: path) x
  | .call name args =>
    match resolve name args args with
    | .ok _ => argumentDefects path 0 args
    | .error fault => .badCall path fault :: argumentDefects path 0 args
def argumentDefects (path : Path) (index : Nat) : List Expr → List Defect
  | [] => []
  | a :: as => defects (.argument index :: path) a ++ argumentDefects path (index + 1) as
end

end Expr

end SymbolicCalculus
