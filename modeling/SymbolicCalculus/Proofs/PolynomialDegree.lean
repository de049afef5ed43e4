import SymbolicCalculus.Proofs.ConstantFolding
import SymbolicCalculus.Proofs.Independence

/-!
# Derivatives of polynomials

The degree of a polynomial is read off its tree, with no cancellation. Terms are not
collected by simplification, yet no local rule raises the degree: like terms keep the
common term, coefficients count nothing, and exponents that are multiplied fit a word as
long as the degree does. A pass lowers the degree, down to the tree that is just zero.
-/

set_option autoImplicit false

namespace SymbolicCalculus
open Checked

namespace Expr

/-! ## Polynomials -/

/-- A valid tree without statements in which the variable does not occur. -/
structure Constant (x : String) (e : Expr) : Prop extends Fixed x e where
  valid : validate e = .ok ()

theorem inherited_constant (x : String) : Inherited (Constant x) :=
  ((inherited_fixed x).and inherited_wellFormed).of_iff fun _ =>
    ⟨fun h => ⟨h.1, validate_eq_ok_iff.mpr h.2⟩,
      fun h => ⟨h.toFixed, validate_eq_ok_iff.mp h.valid⟩⟩

/-- Polynomials in a variable with their degree. -/
inductive Polynomial (x : String) : Expr → ℕ → Prop
  | self : Polynomial x (.sym x) 1
  | constant {e : Expr} (h : Constant x e) : Polynomial x e 0
  | add {l r : Expr} {m n : ℕ} (hl : Polynomial x l m) (hr : Polynomial x r n) :
      Polynomial x (.add l r) (max m n)
  | sub {l r : Expr} {m n : ℕ} (hl : Polynomial x l m) (hr : Polynomial x r n) :
      Polynomial x (.sub l r) (max m n)
  | mul {l r : Expr} {m n : ℕ} (hl : Polynomial x l m) (hr : Polynomial x r n) :
      Polynomial x (.mul l r) (m + n)
  | neg {e : Expr} {m : ℕ} (h : Polynomial x e m) : Polynomial x (.neg e) m
  | power (form : PowerForm) {b : Expr} {m : ℕ} {k : Int64} (hk : 0 ≤ k.toInt)
      (hb : Polynomial x b m) : Polynomial x (form.build b (.num k)) (k.toInt.toNat * m)

variable {x : String}

namespace Polynomial

theorem operand {e : Expr} {m : ℕ} (h : Polynomial x (.neg e) m) : Polynomial x e m := by
  generalize ht : Expr.neg e = t at h
  cases h with
  | constant h =>
    subst ht
    exact .constant (((inherited_constant x).neg e).mp h)
  | neg h => cases ht; exact h
  | power form => cases form <;> cases ht
  | _ => cases ht

theorem right_factor {l r : Expr} {m : ℕ} (h : Polynomial x (.mul l r) m) :
    ∃ n ≤ m, Polynomial x r n := by
  generalize ht : Expr.mul l r = t at h
  cases h with
  | constant h =>
    subst ht
    exact ⟨0, le_rfl, .constant (((inherited_constant x).binary .mul l r).mp h).2⟩
  | mul _ hr => cases ht; exact ⟨_, Nat.le_add_left _ _, hr⟩
  | power form => cases form <;> cases ht
  | _ => cases ht

/-- In a normal form nothing but a constant has degree zero: the exponent zero is gone. -/
theorem constant_of_zero {e : Expr} {m : ℕ} (h : Polynomial x e m) (hfree : RedexFree e)
    (hm : m = 0) : Constant x e := by
  have hP := inherited_constant x
  induction h with
  | self => omega
  | constant h => exact h
  | add _ _ ihl ihr =>
    exact (hP.binary _ _ _).mpr ⟨ihl hfree.left (by omega), ihr hfree.right (by omega)⟩
  | sub _ _ ihl ihr =>
    exact (hP.binary _ _ _).mpr ⟨ihl hfree.left (by omega), ihr hfree.right (by omega)⟩
  | mul _ _ ihl ihr =>
    exact (hP.binary _ _ _).mpr ⟨ihl hfree.left (by omega), ihr hfree.right (by omega)⟩
  | neg _ ih => exact (hP.neg _).mpr (ih hfree.operand hm)
  | @power form b i k hk _ ih =>
    rcases Nat.mul_eq_zero.mp hm with hzero | hi
    · have hk0 : k = 0 := toInt_eq_zero_iff.mp (by omega)
      exact ((hfree.inert_build form).exponent_ne_zero (by rw [hk0])).elim
    · exact (hP.build form _ _).mpr ⟨ih (hfree.of_build form).1 hi, hP.num k⟩

/-- A power in normal form is a constant, or its base has a degree of its own. -/
theorem of_build (form : PowerForm) {b e : Expr} {m : ℕ} (h : Polynomial x (form.build b e) m)
    (hfree : RedexFree (form.build b e)) :
    Constant x (form.build b e) ∨
      ∃ (k : Int64) (i : ℕ), e = .num k ∧ 0 ≤ k.toInt ∧ Polynomial x b i ∧ 0 < i ∧
        k.toInt.toNat * i = m := by
  generalize ht : form.build b e = t at h
  cases h with
  | constant h => exact Or.inl h
  | @power form' b' i k hk hb =>
    obtain ⟨rfl, rfl⟩ := build_inj ht
    rcases Nat.eq_zero_or_pos i with hzero | hi
    · have hconst := hb.constant_of_zero (hfree.of_build form).1 hzero
      rw [← ht]
      exact Or.inl (((inherited_constant x).build form _ _).mpr
        ⟨hconst, (inherited_constant x).num k⟩)
    · exact Or.inr ⟨k, i, rfl, hk, hb, hi, rfl⟩
  | _ => cases form <;> cases ht

end Polynomial

/-! ## Bounds on the degree -/

def DegreeAtMost (x : String) (d : ℕ) (e : Expr) : Prop :=
  ∃ m ≤ d, Polynomial x e m

namespace DegreeAtMost

variable {d a b : ℕ} {e l r : Expr}

theorem mono (h : DegreeAtMost x a e) (hab : a ≤ b) : DegreeAtMost x b e := by
  obtain ⟨m, hm, hpoly⟩ := h
  exact ⟨m, hm.trans hab, hpoly⟩

theorem constant (h : Constant x e) (d : ℕ) : DegreeAtMost x d e :=
  ⟨0, Nat.zero_le d, .constant h⟩

theorem num (v : Int64) (d : ℕ) : DegreeAtMost x d (.num v) :=
  constant ((inherited_constant x).num v) d

theorem add (hl : DegreeAtMost x d l) (hr : DegreeAtMost x d r) : DegreeAtMost x d (.add l r) := by
  obtain ⟨m, hm, hl⟩ := hl
  obtain ⟨n, hn, hr⟩ := hr
  exact ⟨max m n, max_le hm hn, hl.add hr⟩

theorem sub (hl : DegreeAtMost x d l) (hr : DegreeAtMost x d r) : DegreeAtMost x d (.sub l r) := by
  obtain ⟨m, hm, hl⟩ := hl
  obtain ⟨n, hn, hr⟩ := hr
  exact ⟨max m n, max_le hm hn, hl.sub hr⟩

theorem mul (hl : DegreeAtMost x a l) (hr : DegreeAtMost x b r) :
    DegreeAtMost x (a + b) (.mul l r) := by
  obtain ⟨m, hm, hl⟩ := hl
  obtain ⟨n, hn, hr⟩ := hr
  exact ⟨m + n, Nat.add_le_add hm hn, hl.mul hr⟩

theorem neg (h : DegreeAtMost x d e) : DegreeAtMost x d (.neg e) := by
  obtain ⟨m, hm, hpoly⟩ := h
  exact ⟨m, hm, hpoly.neg⟩

theorem operand (h : DegreeAtMost x d (.neg e)) : DegreeAtMost x d e := by
  obtain ⟨m, hm, hpoly⟩ := h
  exact ⟨m, hm, hpoly.operand⟩

theorem right_factor (h : DegreeAtMost x d (.mul l r)) : DegreeAtMost x d r := by
  obtain ⟨m, hm, hpoly⟩ := h
  obtain ⟨n, hn, hr⟩ := hpoly.right_factor
  exact ⟨n, hn.trans hm, hr⟩

theorem term {t : Expr} {k : Int64} (hk : coefficient e = (k, t)) (h : DegreeAtMost x d e) :
    DegreeAtMost x d t := by
  unfold coefficient at hk
  split at hk
  · obtain ⟨rfl, rfl⟩ := Prod.mk.inj hk
    exact h.right_factor
  · obtain ⟨rfl, rfl⟩ := Prod.mk.inj hk
    exact h

theorem power (form : PowerForm) {k : Int64} (hk : 0 ≤ k.toInt) (h : DegreeAtMost x a e) :
    DegreeAtMost x (k.toInt.toNat * a) (form.build e (.num k)) := by
  obtain ⟨m, hm, hpoly⟩ := h
  exact ⟨_, Nat.mul_le_mul_left _ hm, hpoly.power form hk⟩

end DegreeAtMost

/-! ## No local rule raises the degree -/

section
variable {d a b : ℕ} {l r s : Expr}

theorem Negates.degree {e : Expr} (h : Negates e s) (he : DegreeAtMost x d e) :
    DegreeAtMost x d s := by
  cases h with
  | neg _ => exact he.operand
  | num _ => exact .num _ d
  | keep _ => exact he.neg

theorem Multiplies.degree (h : Multiplies l r s) (hl : DegreeAtMost x a l)
    (hr : DegreeAtMost x b r) : DegreeAtMost x (a + b) s := by
  induction h generalizing a b with
  | zero_left _ => exact .num 0 _
  | zero_right _ => exact .num 0 _
  | one_left _ => exact hr.mono (Nat.le_add_left b a)
  | one_right _ => exact hl.mono (Nat.le_add_right a b)
  | fold _ => exact .num _ _
  | @merge _ _ p _ _ _ _ ih => exact ih (.num p a) hr.right_factor
  | keep _ => exact hl.mul hr

/-- What is left standing is `op` applied to both operands. -/
theorem Combines.degree {op : Operator} {onInt : ℤ → ℤ → ℤ} (h : Combines op onInt l r s)
    (hl : DegreeAtMost x d l) (hkeep : DegreeAtMost x d (.binary op l r)) :
    DegreeAtMost x d s := by
  cases h with
  | fold _ => exact .num _ d
  | @like_terms _ _ _ _ _ _ c ht _ _ hs =>
    have hterm : DegreeAtMost x (0 + d) s := hs.degree (.num c 0) (hl.term ht)
    rwa [Nat.zero_add] at hterm
  | keep _ => exact hkeep

theorem DegreeAtMost.product (hl : DegreeAtMost x a l) (hr : DegreeAtMost x b r) :
    DegreeAtMost x (a + b) (Expr.product l r) :=
  (multiplies_product l r).degree hl hr

theorem DegreeAtMost.negation {e : Expr} (h : DegreeAtMost x d e) :
    DegreeAtMost x d (Expr.negation e) :=
  (negates_negation e).degree h

theorem DegreeAtMost.sum (hl : DegreeAtMost x d l) (hr : DegreeAtMost x d r) :
    DegreeAtMost x d (Expr.sum l r) := by
  have h := adds_sum l r
  generalize Expr.sum l r = s at h
  cases h with
  | zero_right _ => exact hl
  | zero_left _ => exact hr
  | combine h => exact h.degree hl (hl.add hr)

theorem DegreeAtMost.difference (hl : DegreeAtMost x d l) (hr : DegreeAtMost x d r) :
    DegreeAtMost x d (Expr.difference l r) := by
  have h := subtracts_difference l r
  generalize Expr.difference l r = s at h
  cases h with
  | zero_left h => exact h.degree hr
  | zero_right _ => exact hl
  | combine h => exact h.degree hl (hl.sub hr)

theorem exists_product {j k : Int64} (hj : 0 ≤ j.toInt) (hk : 0 ≤ k.toInt)
    (h : j.toInt.toNat * k.toInt.toNat < 2 ^ 63) :
    ∃ p : Int64, p.toInt = j.toInt * k.toInt ∧ p.toInt.toNat = j.toInt.toNat * k.toInt.toNat := by
  have hprod : j.toInt * k.toInt = (j.toInt.toNat * k.toInt.toNat : ℕ) := by
    rw [Nat.cast_mul, Int.toNat_of_nonneg hj, Int.toNat_of_nonneg hk]
  have hfits : Fits (j.toInt * k.toInt) := by
    unfold Fits
    omega
  obtain ⟨p, hp⟩ := exists_word hfits
  exact ⟨p, hp, by omega⟩

/-- Exponents are multiplied only over a base that is a constant or has a degree, and then
their product is at most the degree. -/
theorem Raises.degree {form : PowerForm} {u : Expr} {k : Int64} (h : Raises form u (.num k) (.ok s))
    (hfree : RedexFree u) (hu : DegreeAtMost x a u) (hk : 0 ≤ k.toInt)
    (hbound : k.toInt.toNat * a < 2 ^ 63) : DegreeAtMost x (k.toInt.toNat * a) s := by
  have hP := (inherited_constant x).toHereditary
  generalize he : Expr.num k = e at h
  generalize hout : Except.ok s = out at h
  induction h generalizing k a with
  | zero_to_zero => cases hout
  | zero_to_negative _ => cases hout
  | zero_base _ _ => cases hout; exact .num 0 _
  | one_base _ => cases hout; exact .num 1 _
  | zero_exponent _ => cases hout; exact .num 1 _
  | one_exponent _ =>
    cases hout
    obtain rfl := Expr.num.inj he
    exact hu.mono (by simp)
  | fold _ _ => cases hout; exact .num _ _
  | @flatten u i _ m _ inner hm hs ih =>
    subst he
    obtain ⟨c, hc, hpoly⟩ := hu
    rcases hpoly.of_build inner hfree with hconst | ⟨j, n, rfl, hj, hbase, hn, rfl⟩
    · obtain ⟨hbase, hexp⟩ := (hP.build inner _ _).mp hconst
      have hsettles := hs.settles hP hbase (hm.hereditary hP hexp (hP.num k))
      rw [← hout] at hsettles
      exact .constant hsettles.of_ok _
    · have hle : j.toInt.toNat * k.toInt.toNat * n ≤ k.toInt.toNat * a := by
        rw [Nat.mul_comm j.toInt.toNat, Nat.mul_assoc]
        exact Nat.mul_le_mul_left _ hc
      obtain ⟨p, hp, hpn⟩ := exists_product hj hk
        (((Nat.le_mul_of_pos_right _ hn).trans hle).trans_lt hbound)
      obtain rfl := hm.integers hp
      rw [← hpn] at hle
      have hpos : 0 ≤ p.toInt := hp ▸ Int.mul_nonneg hj hk
      exact (ih (hfree.of_build inner).1 ⟨n, le_rfl, hbase⟩ hpos (hle.trans_lt hbound) rfl
        hout).mono hle
  | keep _ =>
    cases hout
    subst he
    exact hu.power form hk

end

/-! ## Simplification does not raise the degree -/

theorem power_zero_exponent {form : PowerForm} {b s : Expr} (h : power form b (.num 0) = .ok s) :
    s = .num 1 := by
  have hzero : (Expr.num 0).isZero = true := isZero_iff.mpr rfl
  rw [power.eq_def] at h
  simp only [hzero, Bool.or_true, if_true] at h
  split_ifs at h
  · exact (Except.ok.inj h).symm

section
variable {d a : ℕ} {e : Expr}

theorem Yields.power_degree (form : PowerForm) {u : Expr} {k : Int64}
    (hu : Yields (DegreeAtMost x a) u) (he : Yields (· = .num k) e) (hk : 0 ≤ k.toInt)
    (hbound : k.toInt.toNat * a < 2 ^ 63) :
    Yields (DegreeAtMost x (k.toInt.toNat * a)) (form.build u e) := by
  refine .build form hu he ?_
  rintro u' _ s hfree hu' rfl hs
  exact Raises.degree (hs ▸ raises_power form u' (.num k)) hfree hu' hk hbound

theorem Polynomial.reduce (h : Polynomial x e d) (hd : d < 2 ^ 63) :
    Yields (DegreeAtMost x d) e := by
  induction h with
  | self =>
    rintro s ⟨⟩
    exact ⟨1, le_rfl, .self⟩
  | constant h =>
    intro s hs
    exact .constant ((inherited_constant x).reduce h hs) 0
  | @add _ _ m n _ _ ihl ihr =>
    exact (ihl (by omega)).add (ihr (by omega)) fun _ _ hl hr =>
      (hl.mono (le_max_left m n)).sum (hr.mono (le_max_right m n))
  | @sub _ _ m n _ _ ihl ihr =>
    exact (ihl (by omega)).sub (ihr (by omega)) fun _ _ hl hr =>
      (hl.mono (le_max_left m n)).difference (hr.mono (le_max_right m n))
  | mul _ _ ihl ihr => exact (ihl (by omega)).mul (ihr (by omega)) fun _ _ => .product
  | neg _ ih => exact (ih hd).neg fun _ => .negation
  | @power form u m k hk _ ih =>
    rcases Nat.eq_zero_or_pos k.toInt.toNat with hzero | hpos
    · -- The base may have any degree here, but it is dropped.
      obtain rfl : k = 0 := toInt_eq_zero_iff.mp (by omega)
      refine .build form (.anything u) (.num 0) ?_
      rintro u' _ s _ _ rfl hs
      rw [power_zero_exponent hs]
      exact .num 1 _
    · exact (ih ((Nat.le_mul_of_pos_left m hpos).trans_lt hd)).power_degree form (.num k) hk hd

end

/-! ## A pass lowers the degree -/

def DegreeBelow (x : String) : ℕ → Expr → Prop
  | 0, e => e = .num 0
  | d + 1, e => DegreeAtMost x d e

namespace DegreeBelow

variable {d a b : ℕ} {e l r : Expr}

theorem zero (d : ℕ) : DegreeBelow x d (.num 0) := by
  cases d with
  | zero => rfl
  | succ d => exact .num 0 d

theorem mono (h : DegreeBelow x a e) (hab : a ≤ b) : DegreeBelow x b e := by
  cases a with
  | zero =>
    cases h
    exact zero b
  | succ a =>
    obtain ⟨b, rfl⟩ := Nat.exists_eq_add_of_le' (Nat.one_le_of_lt hab)
    exact DegreeAtMost.mono h (by omega)

theorem sum (hl : DegreeBelow x d l) (hr : DegreeBelow x d r) :
    DegreeBelow x d (Expr.sum l r) := by
  cases d with
  | zero =>
    cases hl
    cases hr
    rfl
  | succ d => exact DegreeAtMost.sum hl hr

theorem difference (hl : DegreeBelow x d l) (hr : DegreeBelow x d r) :
    DegreeBelow x d (Expr.difference l r) := by
  cases d with
  | zero =>
    cases hl
    cases hr
    rfl
  | succ d => exact DegreeAtMost.difference hl hr

theorem negation (h : DegreeBelow x d e) : DegreeBelow x d (Expr.negation e) := by
  cases d with
  | zero =>
    cases h
    rfl
  | succ d => exact DegreeAtMost.negation h

theorem product_left (hl : DegreeBelow x a l) (hr : DegreeAtMost x b r) :
    DegreeBelow x (a + b) (product l r) := by
  cases a with
  | zero =>
    cases hl
    rw [product_zero_left]
    exact zero _
  | succ a =>
    rw [Nat.add_right_comm]
    exact DegreeAtMost.product hl hr

theorem product_right (hl : DegreeAtMost x a l) (hr : DegreeBelow x b r) :
    DegreeBelow x (a + b) (product l r) := by
  cases b with
  | zero =>
    cases hr
    rw [product_zero_right]
    exact zero _
  | succ b => exact hl.product hr

end DegreeBelow

section
variable {d a : ℕ} {e : Expr}

/-- The factor in front of the base has the degree of one base less. -/
theorem powerRule_degree (form : PowerForm) {u du : Expr} (de : Expr) {k : Int64}
    (hk : 0 < k.toInt) (hu : Yields (DegreeAtMost x a) u) (hdu : Yields (DegreeBelow x a) du)
    (hbound : k.toInt.toNat * a < 2 ^ 63) :
    Yields (DegreeBelow x (k.toInt.toNat * a)) (powerRule form x u (.num k) du de) := by
  obtain ⟨j, hj, hreduce⟩ := reduce_lowered hk
  have hdegree : 0 + j.toInt.toNat * a + a = k.toInt.toNat * a := by
    obtain ⟨n, hn⟩ : ∃ n, k.toInt.toNat = n + 1 := Nat.exists_eq_add_of_le' (by omega)
    have hjn : j.toInt.toNat = n := by omega
    rw [hn, hjn, Nat.zero_add, Nat.succ_mul]
  have hlower := hu.power_degree form (.of_ok hreduce) (by omega) (by omega)
  have hcoefficient : Yields (DegreeAtMost x 0) (.num k) := by
    rintro s ⟨⟩
    exact .num k 0
  have hfactor : Yields (DegreeAtMost x (0 + j.toInt.toNat * a)) _ :=
    hcoefficient.mul hlower fun _ _ => .product
  rw [← hdegree]
  exact hfactor.mul hdu fun _ _ => .product_right

theorem Polynomial.derive {e' : Expr} (h : Polynomial x e d) (hd : d < 2 ^ 63)
    (he : Expr.derive x e = .ok e') : Yields (DegreeBelow x d) e' := by
  induction h generalizing e' with
  | self =>
    rw [Expr.derive, if_pos rfl] at he
    cases he
    rintro s ⟨⟩
    exact .num 1 0
  | constant h => exact derive_vanishes h.toFixed he
  | @add _ _ m n _ _ ihl ihr =>
    obtain ⟨dl, hdl, dr, hdr, rfl⟩ := derive_binary.mp he
    exact (ihl (by omega) hdl).add (ihr (by omega) hdr) fun _ _ hl hr =>
      (hl.mono (le_max_left m n)).sum (hr.mono (le_max_right m n))
  | @sub _ _ m n _ _ ihl ihr =>
    obtain ⟨dl, hdl, dr, hdr, rfl⟩ := derive_binary.mp he
    exact (ihl (by omega) hdl).sub (ihr (by omega) hdr) fun _ _ hl hr =>
      (hl.mono (le_max_left m n)).difference (hr.mono (le_max_right m n))
  | @mul l r m n hl hr ihl ihr =>
    obtain ⟨dl, hdl, dr, hdr, rfl⟩ := derive_binary.mp he
    have hleft : Yields (DegreeBelow x (m + n)) (.mul dl r) :=
      (ihl (by omega) hdl).mul (hr.reduce (by omega)) fun _ _ => .product_left
    have hright : Yields (DegreeBelow x (m + n)) (.mul l dr) :=
      (hl.reduce (by omega)).mul (ihr (by omega) hdr) fun _ _ => .product_right
    exact hleft.add hright fun _ _ => .sum
  | neg _ ih =>
    obtain ⟨dx, hdx, rfl⟩ := derive_neg.mp he
    exact (ih hd hdx).neg fun _ => .negation
  | @power form u m k hk hu ih =>
    obtain ⟨du, hdu, de, _, rfl⟩ := (derive_build form).mp he
    rcases Nat.eq_zero_or_pos k.toInt.toNat with hzero | hpos
    · -- The exponent zero is a factor of the derivative.
      obtain rfl : k = 0 := toInt_eq_zero_iff.mp (by omega)
      intro s hs
      rw [(Vanishes.zero.mul_left _).mul_left du s hs]
      exact .zero _
    · have hm : m < 2 ^ 63 := (Nat.le_mul_of_pos_left m hpos).trans_lt hd
      exact powerRule_degree form de (by omega) (hu.reduce hm) (ih hm hdu) hd

theorem DegreeBelow.passes {n done : ℕ} {s : Expr} (h : DegreeBelow x n e) (hn : n < 2 ^ 63)
    (hs : passes x done n e = .ok s) : s = .num 0 := by
  induction n generalizing e done with
  | zero =>
    cases h
    exact (Except.ok.inj hs).symm
  | succ n ih =>
    obtain ⟨m, hm, hpoly⟩ := h
    rw [SymbolicCalculus.passes] at hs
    cases hpass : differentiateSimplify x e with
    | error f =>
      rw [hpass] at hs
      cases hs
    | ok e' =>
      rw [hpass] at hs
      obtain ⟨e₁, he₁, hreduce⟩ := differentiateSimplify_eq_ok.mp hpass
      have hbelow := hpoly.derive (by omega) he₁ e' hreduce
      exact ih (hbelow.mono hm) (by omega) hs

end

end Expr

/-- A polynomial differentiated more often than its degree gives zero, as long as every
pass has a result. -/
theorem differentiateTimes_polynomial (x : String) (e : Expr) (d : ℕ) (he : e.Polynomial x d)
    (n : ℤ) (hdn : d < n) (hn : n ≤ Int64.maxValue.toInt) (s : Expr)
    (hs : differentiateTimes x n e = .ok s) : s = .num 0 := by
  have hmax : Int64.maxValue.toInt = 2 ^ 63 - 1 := rfl
  obtain ⟨k, hk⟩ : ∃ k, n.toNat = k + 1 := Nat.exists_eq_add_of_le' (by omega)
  have hbelow : Expr.DegreeBelow x n.toNat e := by
    rw [hk]
    exact ⟨d, by omega, he⟩
  unfold differentiateTimes at hs
  split_ifs at hs
  exact hbelow.passes (by omega) hs

/-- `pow(x + sin(y), 2) - 9223372036854775807 * (2 * x)`, of degree two, to the order three.
The two coefficients have no product in a word and stay apart. -/
theorem differentiateTimes_polynomial_unfolded :
    let e : Expr := .sub (.call "pow" [.add (.sym "x") (.call "sin" [.sym "y"]), .num 2])
      (.mul (.num Int64.maxValue) (.mul (.num 2) (.sym "x")))
    e.Polynomial "x" 2 ∧ differentiateTimes "x" 3 e = .ok (.num 0) := by
  intro e
  have hconstant : (Expr.call "sin" [.sym "y"]).Constant "x" := ⟨⟨by decide, by decide⟩, rfl⟩
  have hnum (v : Int64) : (Expr.num v).Polynomial "x" 0 :=
    .constant ((Expr.inherited_constant "x").num v)
  have he : e.Polynomial "x" 2 :=
    .sub (.power .call (by decide) (.add .self (.constant hconstant)))
      (.mul (hnum _) (.mul (hnum 2) .self))
  obtain ⟨s, hs⟩ : ∃ s, differentiateTimes "x" 3 e = .ok s := ⟨_, rfl⟩
  obtain rfl := differentiateTimes_polynomial "x" e 2 he 3 (by decide) (by decide) s hs
  exact ⟨he, hs⟩

end SymbolicCalculus
