import SymbolicCalculus.Expr.Basic
import SymbolicCalculus.Decimal.Integer
import SymbolicCalculus.Text.Quoted

/-!
# Outline of a tree

The tree as nested records, one field to a line and two blanks for every level.
-/

set_option autoImplicit false

namespace SymbolicCalculus

def Operator.recordName : Operator → String
  | .add => "Add"
  | .sub => "Sub"
  | .mul => "Mul"
  | .div => "Div"
  | .pow => "Pow"

namespace Expr

def margin (level : Nat) : String :=
  String.ofList (List.replicate (2 * level) ' ')

def fieldLine (level : Nat) (name value : String) : String :=
  margin level ++ name ++ ": " ++ value ++ ",\n"

def recordText (level : Nat) (name lines : String) : String :=
  name ++ "\x7b\n" ++ lines ++ margin level ++ "\x7d"

mutual
def outline (level : Nat) : Expr → String
  | .missing => "nil"
  | .num v => recordText level "&Num" (fieldLine (level + 1) "val" (Decimal.ofInt v.toInt))
  | .sym name => recordText level "&Sym" (fieldLine (level + 1) "name" (Text.quoted name))
  | .binary op l r =>
    recordText level ("&" ++ op.recordName)
      (fieldLine (level + 1) "binary"
        (recordText (level + 1) "binary"
          (fieldLine (level + 2) "left" (outline (level + 2) l) ++
            fieldLine (level + 2) "right" (outline (level + 2) r))))
  | .neg x => recordText level "&Neg" (fieldLine (level + 1) "x" (outline (level + 1) x))
  | .call name [] =>
    recordText level "&Func"
      (fieldLine (level + 1) "name" (Text.quoted name) ++
        fieldLine (level + 1) "args" "[]Expr\x7b\x7d")
  | .call name (a :: as) =>
    recordText level "&Func"
      (fieldLine (level + 1) "name" (Text.quoted name) ++
        fieldLine (level + 1) "args"
          (recordText (level + 1) "[]Expr" (outlineItems (level + 2) (a :: as))))
  | .stmt x => recordText level "&Stmt" (fieldLine (level + 1) "x" (outline (level + 1) x))
def outlineItems (level : Nat) : List Expr → String
  | [] => ""
  | a :: as => margin level ++ outline level a ++ ",\n" ++ outlineItems level as
end

end Expr

end SymbolicCalculus
