import Mathlib.Algebra.Order.Field.Rat
import SymbolicCalculus.Proofs.Rules

/-!
# The exact meaning of a tree

A tree means a rational number under an interpretation of its variables and
functions, or nothing where a divisor is zero, an exponent is not an integer, zero
is raised to a power that is not positive, or something is missing. Apart from the
power, functions are arbitrary partial functions of their arguments' values.
-/

set_option autoImplicit false

namespace SymbolicCalculus

/-- Values of the variables, and partial functions for the names of functions other
than the power. -/
structure Interpretation where
  symbol : String → Option ℚ
  function : String → List ℚ → Option ℚ

def power? (b n : ℚ) : Option ℚ :=
  if n.den = 1 ∧ ¬ (b = 0 ∧ n ≤ 0) then some (b ^ n.num) else none

theorem power?_eq_some {b n q : ℚ} :
    power? b n = some q ↔ ∃ k : ℤ, n = k ∧ ¬ (b = 0 ∧ k ≤ 0) ∧ b ^ k = q := by
  unfold power?
  constructor
  · intro h
    split_ifs at h with hc
    have hn : n = n.num := (Rat.den_eq_one_iff n).mp hc.1 |>.symm
    refine ⟨n.num, hn, ?_, Option.some.inj h⟩
    intro hz
    exact hc.2 ⟨hz.1, Rat.num_nonpos.mp hz.2⟩
  · rintro ⟨k, rfl, hk, rfl⟩
    rw [if_pos]
    · rw [Rat.num_intCast]
    · refine ⟨Rat.den_intCast k, ?_⟩
      intro hz
      exact hk ⟨hz.1, by exact_mod_cast hz.2⟩

theorem power?_intCast {b q : ℚ} {k : ℤ} :
    power? b k = some q ↔ ¬ (b = 0 ∧ k ≤ 0) ∧ b ^ k = q := by
  rw [power?_eq_some]
  constructor
  · rintro ⟨j, hj, h⟩
    rwa [Int.cast_inj.mp hj]
  · intro h
    exact ⟨k, rfl, h⟩

/-- Powers of powers. A zero base has a positive exponent both times. -/
theorem power?_power {u a x n q : ℚ} (hx : power? u a = some x) (hq : power? x n = some q) :
    power? u (a * n) = some q := by
  obtain ⟨j, rfl, hj, rfl⟩ := power?_eq_some.mp hx
  obtain ⟨k, rfl, hk, rfl⟩ := power?_eq_some.mp hq
  refine power?_eq_some.mpr ⟨j * k, by push_cast; rfl, ?_, by rw [zpow_mul]⟩
  rintro ⟨rfl, hjk⟩
  have hj' : 0 < j := by
    by_contra h
    exact hj ⟨rfl, by omega⟩
  have hzero : (0 : ℚ) ^ j = 0 := zero_zpow j hj'.ne'
  have hk' : 0 < k := by
    by_contra h
    exact hk ⟨hzero, by omega⟩
  have := mul_pos hj' hk'
  omega

def Operator.result? : Operator → ℚ → ℚ → Option ℚ
  | .add, x, y => some (x + y)
  | .sub, x, y => some (x - y)
  | .mul, x, y => some (x * y)
  | .div, x, y => if y = 0 then none else some (x / y)
  | .pow, x, y => power? x y

section
variable (x y : ℚ)

@[simp] theorem Operator.result?_add : Operator.add.result? x y = some (x + y) := rfl
@[simp] theorem Operator.result?_sub : Operator.sub.result? x y = some (x - y) := rfl
@[simp] theorem Operator.result?_mul : Operator.mul.result? x y = some (x * y) := rfl

end

theorem Operator.result?_div {x y q : ℚ} :
    Operator.div.result? x y = some q ↔ y ≠ 0 ∧ x / y = q := by
  simp [Operator.result?]

namespace Expr

mutual
def meaning (I : Interpretation) : Expr → Option ℚ
  | .missing => none
  | .num v => some v.toInt
  | .sym name => I.symbol name
  | .binary op l r => do
    let x ← meaning I l
    let y ← meaning I r
    op.result? x y
  | .neg x => do
    let x ← meaning I x
    some (-x)
  | .call name args => do
    let values ← meanings I args
    if name = "pow" then
      match values with
      | [b, n] => power? b n
      | _ => none
    else I.function name values
  | .stmt x => meaning I x
def meanings (I : Interpretation) : List Expr → Option (List ℚ)
  | [] => some []
  | a :: as => do
    let x ← meaning I a
    let xs ← meanings I as
    some (x :: xs)
end

variable {I : Interpretation}

@[simp] theorem meaning_num (v : Int64) : meaning I (.num v) = some (v.toInt : ℚ) :=
  rfl

theorem eq_of_meaning_num {v : Int64} {q : ℚ} (h : meaning I (.num v) = some q) : q = v.toInt := by
  rw [meaning_num, Option.some.injEq] at h
  exact h.symm

@[simp] theorem meaning_sym (name : String) : meaning I (.sym name) = I.symbol name :=
  rfl

@[simp] theorem meaning_stmt (x : Expr) : meaning I (.stmt x) = meaning I x :=
  rfl

theorem meaning_binary_eq (op : Operator) (l r : Expr) :
    meaning I (.binary op l r) =
      (meaning I l).bind fun x => (meaning I r).bind fun y => op.result? x y :=
  rfl

theorem meaning_neg_eq (x : Expr) : meaning I (.neg x) = (meaning I x).bind fun y => some (-y) :=
  rfl

theorem meaning_binary {op : Operator} {l r : Expr} {q : ℚ} :
    meaning I (.binary op l r) = some q ↔
      ∃ x, meaning I l = some x ∧ ∃ y, meaning I r = some y ∧ op.result? x y = some q := by
  simp [meaning_binary_eq, Option.bind_eq_some_iff]

theorem meaning_neg {x : Expr} {q : ℚ} :
    meaning I (.neg x) = some q ↔ ∃ y, meaning I x = some y ∧ -y = q := by
  simp [meaning_neg_eq, Option.bind_eq_some_iff]

theorem meanings_eq_some {args : List Expr} {xs : List ℚ} :
    meanings I args = some xs ↔ List.Forall₂ (fun a x => meaning I a = some x) args xs := by
  induction args generalizing xs with
  | nil => simp only [meanings, Option.some.injEq, List.forall₂_nil_left_iff, eq_comm]
  | cons a as ih =>
    simp only [meanings, Option.bind_eq_bind, Option.bind_eq_some_iff, Option.some.injEq,
      List.forall₂_cons_left_iff, ih]
    constructor
    · rintro ⟨x, hx, xs', hxs, rfl⟩
      exact ⟨x, xs', hx, hxs, rfl⟩
    · rintro ⟨x, xs', hx, hxs, rfl⟩
      exact ⟨x, hx, xs', hxs, rfl⟩

theorem meaning_call {name : String} (hname : name ≠ "pow") {args : List Expr} {q : ℚ} :
    meaning I (.call name args) = some q ↔
      ∃ xs, List.Forall₂ (fun a x => meaning I a = some x) args xs ∧
        I.function name xs = some q := by
  simp [meaning, Option.bind_eq_some_iff, meanings_eq_some, hname]

theorem meaning_build (form : PowerForm) {b e : Expr} {q : ℚ} :
    meaning I (form.build b e) = some q ↔
      ∃ x, meaning I b = some x ∧ ∃ n, meaning I e = some n ∧ power? x n = some q := by
  cases form with
  | node => exact meaning_binary
  | call => simp [PowerForm.build, meaning, meanings, Option.bind_eq_some_iff]

theorem meaning_power_call {args : List Expr} {q : ℚ} (h : meaning I (.call "pow" args) = some q) :
    ∃ b e, args = [b, e] := by
  simp only [meaning, Option.bind_eq_bind, Option.bind_eq_some_iff, meanings_eq_some, if_true] at h
  obtain ⟨xs, hargs, hq⟩ := h
  have hlength := hargs.length_eq
  split at hq
  · obtain ⟨b, e, rfl⟩ := List.length_eq_two.mp hlength
    exact ⟨b, e, rfl⟩
  · cases hq

end Expr

end SymbolicCalculus
