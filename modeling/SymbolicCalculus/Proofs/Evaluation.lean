import SymbolicCalculus.Evaluate
import SymbolicCalculus.Proofs.Preservation

/-!
# Evaluation, node by node and under substitution

Evaluating a tree in which a variable was replaced is evaluating the tree with the
variable bound to the value of what was put in. The faults may name different
subtrees, so runs are compared by their outcome. Nothing is used of arithmetic on
doubles or of the elementary functions but that they are functions.
-/

set_option autoImplicit false

namespace SymbolicCalculus

namespace Expr
open Fault (outcome outcome_bind)

/-! ## What evaluation does at each node -/

section
variable {env : Environment}

theorem value_binary (op : Operator) (l r : Expr) :
    value env (.binary op l r) =
      (value env l >>= fun x => value env r >>= fun y =>
        operatorValue (.binary op l r) op x y) :=
  rfl

theorem value_neg (x : Expr) :
    value env (.neg x) = (value env x >>= fun a => .ok (-a)) :=
  rfl

theorem value_stmt (x : Expr) : value env (.stmt x) = value env x :=
  rfl

theorem isMissing_of_value {e : Expr} {x : Float} (h : value env e = .ok x) :
    e.isMissing = false := by
  cases e with
  | missing => cases h
  | _ => rfl

theorem value_unary (f : Unary) {u : Expr} (hu : u.isMissing = false) :
    value env (.call f.name [u]) = (value env u >>= fun x => .ok (f.value x)) := by
  have hresolve : resolveGiven f.name [u] [value env u] = .ok (.unary f (value env u)) :=
    resolveGiven_eq_ok.mpr ⟨resolve_unary f _, by simpa using hu⟩
  rw [value, valueEach, valueEach, hresolve]
  rfl

theorem value_pow {b e : Expr} (hb : b.isMissing = false) (he : e.isMissing = false) :
    value env (.call "pow" [b, e]) =
      (value env b >>= fun x => value env e >>= fun n =>
        powerValue (.call "pow" [b, e]) x n) := by
  have hresolve : resolveGiven "pow" [b, e] [value env b, value env e] =
      .ok (.pow (value env b) (value env e)) :=
    resolveGiven_eq_ok.mpr ⟨resolve_pow _ _, by simp [hb, he]⟩
  rw [value, valueEach, valueEach, valueEach, hresolve]
  rfl

/-- Whether a power has a value does not depend on the node it is computed for. -/
theorem outcome_powerValue (e e' : Expr) (b n : Float) :
    outcome (powerValue e b n) = outcome (powerValue e' b n) := by
  unfold powerValue
  split_ifs
  · rfl
  · rfl

theorem outcome_operatorValue (e e' : Expr) (op : Operator) (x y : Float) :
    outcome (operatorValue e op x y) = outcome (operatorValue e' op x y) := by
  cases op with
  | add => rfl
  | sub => rfl
  | mul => rfl
  | div =>
    unfold operatorValue
    split_ifs
    · rfl
    · rfl
  | pow => exact outcome_powerValue e e' x y

end

/-! ## Substitution -/

theorem isMissing_subst {v : String} {w e : Expr} (he : e.isMissing = false)
    (hw : w.isMissing = false) : (subst v w e).isMissing = false := by
  cases e with
  | missing => exact he
  | sym name =>
    rw [subst]
    split_ifs
    · exact hw
    · rfl
  | _ => rfl

theorem value_subst {env : Environment} {v : String} {w e : Expr} {a : Float}
    (h : WellFormed e) (hw : value env w = .ok a) :
    outcome (value env (subst v w e)) = outcome (value (env.bind v a) e) := by
  have hpresent {u : Expr} (hu : WellFormed u) : (subst v w u).isMissing = false :=
    isMissing_subst hu.isMissing_eq_false (isMissing_of_value hw)
  induction h with
  | num n => rfl
  | @sym name _ =>
    by_cases hname : name = v
    · simp [subst, value, Environment.bind, hname, hw]
    · simp [subst, value, Environment.bind, hname]
  | binary op _ _ ihl ihr =>
    rw [subst, value_binary, value_binary]
    exact outcome_bind ihl fun _ => outcome_bind ihr fun _ => outcome_operatorValue _ _ op _ _
  | neg _ ih =>
    rw [subst, value_neg, value_neg]
    exact outcome_bind ih fun _ => rfl
  | pi => rfl
  | unary f hu ih =>
    rw [subst, substAll, substAll, value_unary f (hpresent hu), value_unary f hu.isMissing_eq_false]
    exact outcome_bind ih fun _ => rfl
  | pow hb he ihb ihe =>
    rw [subst, substAll, substAll, substAll, value_pow (hpresent hb) (hpresent he),
      value_pow hb.isMissing_eq_false he.isMissing_eq_false]
    exact outcome_bind ihb fun _ => outcome_bind ihe fun _ => outcome_powerValue _ _ _ _
  | stmt _ ih =>
    rw [subst, value_stmt, value_stmt]
    exact ih

end Expr

open SymbolicCalculus.Expr (value subst)

theorem evaluate_eq_ok {env : Environment} {e : Expr} {x : Float} :
    evaluate env e = .ok x ↔ e.value env = .ok x :=
  mapError_eq_ok

theorem outcome_evaluate (env : Environment) (e : Expr) :
    Error.outcome (evaluate env e) = (Fault.outcome (e.value env)).mapError some :=
  Error.outcome_during .evaluating (e.value env)

/-- Substitution into a valid tree succeeds for everything that has a value, whether or not
that is valid itself, and the result is evaluated like the tree with the variable bound to
that value: to the same double, or to an error of the same kind. -/
theorem evaluate_substitute (env : Environment) (v : String) (w e : Expr) (a : Float)
    (he : validate e = .ok ()) (hw : evaluate env w = .ok a) :
    ∃ s, substitute v w e = .ok s ∧
      Error.outcome (evaluate env s) = Error.outcome (evaluate (env.bind v a) e) := by
  have hform := validate_eq_ok_iff.mp he
  have hvalue := evaluate_eq_ok.mp hw
  refine ⟨subst v w e, substitute_of_present v hform (Expr.isMissing_of_value hvalue), ?_⟩
  rw [outcome_evaluate, outcome_evaluate, Expr.value_subst hform hvalue]

/-- A divisor is replaced by a difference that has the value zero. The difference would not
pass validation, since the second of its variables has an empty name. -/
theorem evaluate_substitute_divisor :
    let env : Environment := fun name => if name = "x" ∨ name = "" then some 2 else none
    let w : Expr := .sub (.sym "x") (.sym "")
    let e : Expr := .div (.num 1) (.sym "y")
    validate e = .ok () ∧ evaluate env w = .ok (2 - 2) ∧
      ∃ s, substitute "y" w e = .ok s ∧
        Error.outcome (evaluate env s) = Error.outcome (evaluate (env.bind "y" (2 - 2)) e) ∧
        Error.outcome (evaluate env s) = .error (some .divisionByZero) := by
  intro env w e
  have he : validate e = .ok () := rfl
  have hw : evaluate env w = .ok (2 - 2) := rfl
  obtain ⟨s, hs, houtcome⟩ := evaluate_substitute env "y" w e _ he hw
  have hzero : ((2 : Float) - 2 == 0) = true := by decide +kernel
  have hbound : e.value (env.bind "y" (2 - 2)) = .error ⟨.zeroDivisorValue, e⟩ := by
    show Expr.operatorValue e .div (Int64.toFloat 1) (2 - 2) = _
    rw [Expr.operatorValue, if_pos hzero]
  refine ⟨he, hw, s, hs, houtcome, ?_⟩
  rw [houtcome, outcome_evaluate, hbound]
  rfl

end SymbolicCalculus
