import SymbolicCalculus.Error

/-!
# Substitution

All occurrences of one variable are replaced at once; what is put in is not
searched again.
-/

set_option autoImplicit false

namespace SymbolicCalculus

namespace Expr

mutual
def subst (v : String) (w : Expr) : Expr → Expr
  | .missing => .missing
  | .num n => .num n
  | .sym name => if name = v then w else .sym name
  | .binary op l r => .binary op (subst v w l) (subst v w r)
  | .neg x => .neg (subst v w x)
  | .call name args => .call name (substAll v w args)
  | .stmt x => .stmt (subst v w x)
def substAll (v : String) (w : Expr) : List Expr → List Expr
  | [] => []
  | a :: as => subst v w a :: substAll v w as
end

end Expr

/-- Replaces a variable of a well-formed tree. The value need not be well formed,
but it must be there. -/
def substitute (v : String) (w : Expr) (e : Expr) : Except Error Expr := do
  if e.isMissing || w.isMissing then .error (.fault .noExpression)
  else
    validate e
    .ok (Expr.subst v w e)

end SymbolicCalculus
