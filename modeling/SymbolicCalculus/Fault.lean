import SymbolicCalculus.Expr.Render
import SymbolicCalculus.Function
import SymbolicCalculus.Text.Quoted

/-!
# Faults

Why an engine stops: a cause, and the subtree at which it was found (`missing`
where there is none to show). Every cause belongs to one of five kinds.
-/

set_option autoImplicit false

namespace SymbolicCalculus

inductive Kind where
  | unsupportedNode
  | missingOperand
  | divisionByZero
  | indeterminateForm
  | unboundVariable
  deriving DecidableEq, Repr

def Kind.name : Kind → String
  | .unsupportedNode => "unsupported_node"
  | .missingOperand => "missing_operand"
  | .divisionByZero => "division_by_zero"
  | .indeterminateForm => "indeterminate_form"
  | .unboundVariable => "unbound_variable"

def Kind.title : Kind → String
  | .unsupportedNode => "unsupported node"
  | .missingOperand => "missing operand"
  | .divisionByZero => "division by zero"
  | .indeterminateForm => "indeterminate form"
  | .unboundVariable => "unbound variable"

inductive Cause where
  | noExpression
  | unknownFunction (name : String)
  | wrongArity (f : Function) (given : Nat)
  | missingArgument (name : String) (index : Nat)
  | noOuterFactor (name : String)
  | zeroDivisor
  | zeroToNegative
  | zeroToZero
  | unbound (name : String)
  | zeroDivisorValue
  deriving DecidableEq, Repr

/-- Too few arguments leave an operand missing; too many are not supported. -/
def Cause.kind : Cause → Kind
  | .noExpression => .unsupportedNode
  | .unknownFunction _ => .unsupportedNode
  | .wrongArity f given => if given < f.arity then .missingOperand else .unsupportedNode
  | .missingArgument _ _ => .missingOperand
  | .noOuterFactor _ => .unsupportedNode
  | .zeroDivisor => .divisionByZero
  | .zeroToNegative => .divisionByZero
  | .zeroToZero => .indeterminateForm
  | .unbound _ => .unboundVariable
  | .zeroDivisorValue => .divisionByZero

def Cause.detail : Cause → String
  | .noExpression => "nil expression"
  | .unknownFunction name => "unknown function " ++ Text.quoted name
  | .wrongArity f given =>
    f.name ++ " takes " ++ Decimal.ofNat f.arity ++ " argument(s), got " ++ Decimal.ofNat given
  | .missingArgument name index => name ++ ": argument " ++ Decimal.ofNat index ++ " is nil"
  | .noOuterFactor name => name ++ " has no single outer derivative"
  | .zeroDivisor => "divisor is 0"
  | .zeroToNegative => "0 raised to a negative power"
  | .zeroToZero => "0^0"
  | .unbound name => name
  | .zeroDivisorValue => "divisor evaluates to 0"

structure Fault where
  cause : Cause
  subject : Expr
  deriving DecidableEq, Repr

namespace Fault

def kind (f : Fault) : Kind := f.cause.kind

/-- The kind, the detail if there is one, and the subject if there is one. -/
def message (f : Fault) : String :=
  let detail := f.cause.detail
  let head := f.kind.title ++ if detail = "" then "" else ": " ++ detail
  if f.subject.isMissing then head else head ++ " in " ++ f.subject.render

def noExpression : Fault := ⟨.noExpression, .missing⟩

end Fault

namespace Expr

/-- The function that a call names, if it is called with the right number of
arguments. -/
def resolve {α : Type} (name : String) (args : List Expr) (given : List α) :
    Except Fault (Application α) :=
  match Function.ofName? name with
  | none => .error ⟨.unknownFunction name, .call name args⟩
  | some f =>
    match f.apply? given with
    | some application => .ok application
    | none => .error ⟨.wrongArity f given.length, .call name args⟩

def missingIndex (start : Nat) : List Expr → Option Nat
  | [] => none
  | a :: as => if a.isMissing then some start else missingIndex (start + 1) as

/-- Like `resolve`, and no argument may be missing. The arguments are checked as
trees; `given` is what the caller wants in their place, one for each. -/
def resolveGiven {α : Type} (name : String) (args : List Expr) (given : List α) :
    Except Fault (Application α) := do
  let application ← resolve name args given
  match missingIndex 0 args with
  | some i => .error ⟨.missingArgument name i, .call name args⟩
  | none => .ok application

end Expr

end SymbolicCalculus
