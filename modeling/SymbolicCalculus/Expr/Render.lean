import SymbolicCalculus.Decimal.Integer
import SymbolicCalculus.Expr.Basic

/-!
# One-line rendering

Every operator application is parenthesised, so the text shows the shape of the
tree. It is the text of reports, of plain output and of tool answers.
-/

set_option autoImplicit false

namespace SymbolicCalculus

def Operator.symbol : Operator → String
  | .add => "+"
  | .sub => "-"
  | .mul => "*"
  | .div => "/"
  | .pow => "^"

namespace Expr

mutual
def render : Expr → String
  | .missing => "<nil>"
  | .num v => Decimal.ofInt v.toInt
  | .sym name => name
  | .binary op l r => "(" ++ render l ++ " " ++ op.symbol ++ " " ++ render r ++ ")"
  | .neg x => "(-" ++ render x ++ ")"
  | .call name args => name ++ "(" ++ renderArgs args ++ ")"
  | .stmt x => render x ++ ";"
def renderArgs : List Expr → String
  | [] => ""
  | [a] => render a
  | a :: b :: rest => render a ++ ", " ++ renderArgs (b :: rest)
end

end Expr

end SymbolicCalculus
