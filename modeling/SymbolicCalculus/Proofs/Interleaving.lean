import SymbolicCalculus.Proofs.Derivation
import SymbolicCalculus.Proofs.NormalForm

/-!
# Simplification may be interleaved anywhere

Simplifying a part of a tree first, at whatever depth it stands, does not change
the outcome of simplifying the whole. Every node passes on the outcome of its
children, and a part that was simplified before is a normal form already.
-/

set_option autoImplicit false

namespace SymbolicCalculus

inductive Context where
  | hole
  | left (op : Operator) (inner : Context) (r : Expr)
  | right (op : Operator) (l : Expr) (inner : Context)
  | neg (inner : Context)
  | argument (name : String) (before : List Expr) (inner : Context) (after : List Expr)
  | stmt (inner : Context)

def Context.fill : Context → Expr → Expr
  | .hole, t => t
  | .left op inner r, t => .binary op (inner.fill t) r
  | .right op l inner, t => .binary op l (inner.fill t)
  | .neg inner, t => .neg (inner.fill t)
  | .argument name before inner after, t => .call name (before ++ inner.fill t :: after)
  | .stmt inner, t => .stmt (inner.fill t)

namespace Expr
open Fault (outcome outcome_bind)

/-! ## Every node passes on the outcomes of its children -/

theorem outcome_binary {op : Operator} {l l' r r' : Expr}
    (hl : outcome (reduce l) = outcome (reduce l'))
    (hr : outcome (reduce r) = outcome (reduce r')) :
    outcome (reduce (.binary op l r)) = outcome (reduce (.binary op l' r')) := by
  simp only [reduce]
  exact outcome_bind hl fun _ => outcome_bind hr fun _ => rfl

theorem outcome_neg {x x' : Expr} (h : outcome (reduce x) = outcome (reduce x')) :
    outcome (reduce (.neg x)) = outcome (reduce (.neg x')) := by
  simp only [reduce]
  exact outcome_bind h fun _ => rfl

theorem outcome_stmt {x x' : Expr} (h : outcome (reduce x) = outcome (reduce x')) :
    outcome (reduce (.stmt x)) = outcome (reduce (.stmt x')) := by
  simp only [reduce]
  exact outcome_bind h fun _ => rfl

theorem outcome_arguments {before after : List Expr} {t t' : Expr}
    (h : outcome (reduce t) = outcome (reduce t')) :
    outcome (reduceAll (before ++ t :: after)) = outcome (reduceAll (before ++ t' :: after)) := by
  induction before with
  | nil =>
    simp only [List.nil_append, reduceAll]
    exact outcome_bind h fun _ => rfl
  | cons a as ih =>
    simp only [List.cons_append, reduceAll]
    exact outcome_bind rfl fun _ => outcome_bind ih fun _ => rfl

/-- A power call with the wrong number of operands is reported with the operands as
they were given; its kind depends on their number only. -/
theorem outcome_call {name : String} {args args' : List Expr}
    (hlength : args.length = args'.length)
    (h : outcome (reduceAll args) = outcome (reduceAll args')) :
    outcome (reduce (.call name args)) = outcome (reduce (.call name args')) := by
  simp only [reduce]
  refine outcome_bind h fun reduced => ?_
  split_ifs
  · split
    · rfl
    · rw [hlength]
      rfl
  · rfl

theorem outcome_fill (c : Context) {t t' : Expr} (h : outcome (reduce t) = outcome (reduce t')) :
    outcome (reduce (c.fill t)) = outcome (reduce (c.fill t')) := by
  induction c with
  | hole => exact h
  | left op inner r ih => exact outcome_binary ih rfl
  | right op l inner ih => exact outcome_binary rfl ih
  | neg inner ih => exact outcome_neg ih
  | argument name before inner after ih =>
    exact outcome_call (by simp) (outcome_arguments ih)
  | stmt inner ih => exact outcome_stmt ih

end Expr

/-- The derivative of a sum is the sum of the derivatives, also when each of them was
simplified on its own. -/
theorem differentiateSimplify_add {x : String} {u v du dv : Expr}
    (hu : differentiateSimplify x u = .ok du) (hv : differentiateSimplify x v = .ok dv) :
    differentiateSimplify x (.add u v) = simplify (.add du dv) := by
  obtain ⟨u', hu', hdu⟩ := differentiateSimplify_eq_ok.mp hu
  obtain ⟨v', hv', hdv⟩ := differentiateSimplify_eq_ok.mp hv
  have hraw : (Expr.add u v).derive x = .ok (.add u' v') :=
    Expr.derive_binary.mpr ⟨u', hu', v', hv', rfl⟩
  have hleft : differentiateSimplify x (.add u v) = .ok (Expr.sum du dv) :=
    differentiateSimplify_eq_ok.mpr
      ⟨_, hraw, Expr.reduce_binary.mpr ⟨du, hdu, dv, hdv, rfl⟩⟩
  have hright : simplify (.add du dv) = .ok (Expr.sum du dv) :=
    simplify_eq_ok.mpr (Expr.reduce_binary.mpr
      ⟨du, Expr.reduce_idempotent hdu, dv, Expr.reduce_idempotent hdv, rfl⟩)
  rw [hleft, hright]

/-- Replacing any part of a tree by its simplified form keeps the outcome of simplifying
the whole: an equal tree or an error of the same kind. In particular the derivatives of
two summands may be simplified before they are added. -/
theorem simplify_interleaved :
    (∀ (c : Context) (t t' : Expr), simplify t = .ok t' →
      Error.outcome (simplify (c.fill t)) = Error.outcome (simplify (c.fill t'))) ∧
    (∀ (x : String) (u v du dv : Expr),
      differentiateSimplify x u = .ok du → differentiateSimplify x v = .ok dv →
      differentiateSimplify x (.add u v) = simplify (.add du dv)) := by
  constructor
  · intro c t t' h
    have ht : t.reduce = .ok t' := simplify_eq_ok.mp h
    have hpart : Fault.outcome t.reduce = Fault.outcome t'.reduce := by
      rw [ht, Expr.reduce_idempotent ht]
    unfold simplify
    rw [Error.outcome_during, Error.outcome_during, Expr.outcome_fill c hpart]
  · intro x u v du dv hu hv
    exact differentiateSimplify_add hu hv

/-- A divisor that simplifies to zero is found whether or not it was simplified first. -/
theorem simplify_interleaved_divisor :
    simplify (.sub (.sym "x") (.sym "x")) = .ok (.num 0) ∧
      Error.outcome (simplify (.neg (.div (.num 1) (.sub (.sym "x") (.sym "x"))))) =
        Error.outcome (simplify (.neg (.div (.num 1) (.num 0)))) ∧
      Error.outcome (simplify (.neg (.div (.num 1) (.num 0)))) = .error (some .divisionByZero) :=
  ⟨rfl, simplify_interleaved.1 (.neg (.right .div (.num 1) .hole)) _ _ rfl, rfl⟩

end SymbolicCalculus
