import SymbolicCalculus.Defect

/-!
# Errors of the engines

What a public operation on trees reports: a fault, the defects of a tree that
was refused as a whole, or an order of differentiation below zero, wrapped in the
operations that were under way.
-/

set_option autoImplicit false

namespace SymbolicCalculus

inductive Activity where
  | simplifying
  | differentiating (v : String)
  | passing (order : Nat)
  | evaluating
  deriving DecidableEq, Repr

def Activity.label : Activity → String
  | .simplifying => "simplify"
  | .differentiating v => "d/d" ++ v
  | .passing order => "order " ++ Decimal.ofNat order
  | .evaluating => "eval"

inductive Error where
  | fault (f : Fault)
  | defects (first : Defect) (rest : List Defect)
  | negativeOrder (n : Int)
  | during (activity : Activity) (e : Error)
  deriving DecidableEq, Repr

namespace Error

/-- The kind of an error. Among defects an unsupported node outranks a missing
operand. -/
def kind? : Error → Option Kind
  | .fault f => some f.kind
  | .defects first rest =>
    if (first :: rest).any (fun d => d.kind = .unsupportedNode) then some .unsupportedNode
    else some .missingOperand
  | .negativeOrder _ => none
  | .during _ e => e.kind?

def subject : Error → Expr
  | .fault f => f.subject
  | .defects first _ => first.subject
  | .negativeOrder _ => .missing
  | .during _ e => e.subject

def defectLines (ds : List Defect) : String :=
  String.join (ds.map fun d => "\t* " ++ d.message ++ "\n")

def message : Error → String
  | .fault f => f.message
  | .defects first rest =>
    let count := if rest.isEmpty then "1 error" else Decimal.ofNat (rest.length + 1) ++ " errors"
    count ++ " occurred:\n" ++ defectLines (first :: rest) ++ "\n"
  | .negativeOrder n => "derivative order must be non-negative, got " ++ Decimal.ofInt n
  | .during activity e => activity.label ++ ": " ++ e.message

end Error

/-- Refuses a tree with any defect, and reports them all. -/
def validate : Expr → Except Error Unit
  | .missing => .error (.fault .noExpression)
  | e =>
    match e.defects [] with
    | [] => .ok ()
    | first :: rest => .error (.defects first rest)

end SymbolicCalculus
