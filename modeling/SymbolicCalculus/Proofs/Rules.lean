import Mathlib.Data.List.Forall2
import SymbolicCalculus.Proofs.Checked
import SymbolicCalculus.Proofs.Outcome
import SymbolicCalculus.Simplify

/-!
# What the local rules can do

Each local rule is described once, by an inductive relation between its operands
and its result. Facts about all results of a rule follow by induction on the
relation; the rule itself is not unfolded again. A node that a rule leaves as it
is satisfies `Inert`, which says in exact arithmetic that nothing applies to it.
-/

set_option autoImplicit false

namespace SymbolicCalculus
open Checked

namespace Expr

/-! ## Nodes to which no rule applies -/

/-- No rule applies to a sum or a difference. `onInt` is the operation on integers. -/
structure InertSum (onInt : ℤ → ℤ → ℤ) (l r : Expr) : Prop where
  left_ne_zero : l ≠ .num 0
  right_ne_zero : r ≠ .num 0
  no_fold : ∀ a b : Int64, l = .num a → r = .num b → ¬ Fits (onInt a.toInt b.toInt)
  no_like_terms : l.isInteger = false → r.isInteger = false →
    (coefficient l).2 = (coefficient r).2 →
    ¬ Fits (onInt (coefficient l).1.toInt (coefficient r).1.toInt)

structure InertProduct (l r : Expr) : Prop where
  left_ne_zero : l ≠ .num 0
  right_ne_zero : r ≠ .num 0
  left_ne_one : l ≠ .num 1
  right_ne_one : r ≠ .num 1
  no_fold : ∀ a b : Int64, l = .num a → r = .num b → ¬ Fits (a.toInt * b.toInt)
  no_merge : ∀ (a b : Int64) (t : Expr), l = .num a → r = .mul (.num b) t →
    ¬ Fits (a.toInt * b.toInt)

structure InertQuotient (l r : Expr) : Prop where
  left_ne_zero : l ≠ .num 0
  right_ne_zero : r ≠ .num 0
  right_ne_one : r ≠ .num 1
  no_fold : ∀ a b q : Int64, l = .num a → r = .num b → q.toInt * b.toInt ≠ a.toInt

/-- No rule applies to a power, in whichever form it is written. -/
structure InertPower (b e : Expr) : Prop where
  base_ne_zero : b ≠ .num 0
  base_ne_one : b ≠ .num 1
  exponent_ne_zero : e ≠ .num 0
  exponent_ne_one : e ≠ .num 1
  base_ne_power : ∀ (form : PowerForm) (u a : Expr), b ≠ form.build u a
  no_fold : ∀ a n : Int64, b = .num a → e = .num n → 0 ≤ n.toInt →
    ¬ Fits (a.toInt ^ n.toInt.toNat)

structure InertNegation (x : Expr) : Prop where
  ne_neg : ∀ y : Expr, x ≠ .neg y
  eq_least : ∀ v : Int64, x = .num v → v = Int64.minValue

def Inert : Operator → Expr → Expr → Prop
  | .add => InertSum (· + ·)
  | .sub => InertSum (· - ·)
  | .mul => InertProduct
  | .div => InertQuotient
  | .pow => InertPower

/-! ## The tests of the rules -/

@[simp] theorem isZero_iff {e : Expr} : e.isZero = true ↔ e = .num 0 := by
  cases e <;> simp [isZero]

@[simp] theorem isUnity_iff {e : Expr} : e.isUnity = true ↔ e = .num 1 := by
  cases e <;> simp [isUnity]

theorem isNegative_iff {e : Expr} : e.isNegative = true ↔ ∃ v : Int64, e = .num v ∧ v.toInt < 0 := by
  cases e <;> simp [isNegative, Int64.lt_iff_toInt_lt]

/-! ## Negations -/

inductive Negates : Expr → Expr → Prop
  | neg (x : Expr) : Negates (.neg x) x
  | num {v w : Int64} (h : w.toInt = -v.toInt) : Negates (.num v) (.num w)
  | keep {x : Expr} (h : InertNegation x) : Negates x (.neg x)

theorem toInt_neg_exact {v : Int64} (h : v ≠ Int64.minValue) : (-v).toInt = -v.toInt := by
  have hf := fits_toInt v
  have hv : v.toInt ≠ -2 ^ 63 := fun hz => h (Int64.toInt.inj hz)
  rw [Int64.toInt_neg, wrapped_eq]
  unfold Fits at hf ⊢
  omega

theorem negates_negation (x : Expr) : Negates x (negation x) := by
  unfold negation
  split
  · exact .neg _
  · next v =>
    split_ifs with hv
    · exact .keep ⟨by simp, fun w hw => by cases hw; exact hv⟩
    · exact .num (toInt_neg_exact hv)
  · next hneg hnum => exact .keep ⟨hneg, fun v hv => (hnum v hv).elim⟩

theorem negation_inert {x : Expr} (h : InertNegation x) : negation x = .neg x := by
  unfold negation
  split
  · next y => exact (h.ne_neg y rfl).elim
  · next v => rw [if_pos (h.eq_least v rfl)]
  · rfl

/-! ## Products -/

inductive Multiplies : Expr → Expr → Expr → Prop
  | zero_left (r : Expr) : Multiplies (.num 0) r (.num 0)
  | zero_right (l : Expr) : Multiplies l (.num 0) (.num 0)
  | one_left (r : Expr) : Multiplies (.num 1) r r
  | one_right (l : Expr) : Multiplies l (.num 1) l
  | fold {a b p : Int64} (h : p.toInt = a.toInt * b.toInt) :
      Multiplies (.num a) (.num b) (.num p)
  | merge {a b p : Int64} {t s : Expr} (h : p.toInt = a.toInt * b.toInt)
      (hs : Multiplies (.num p) t s) : Multiplies (.num a) (.mul (.num b) t) s
  | keep {l r : Expr} (h : InertProduct l r) : Multiplies l r (.mul l r)

theorem multiplies_product (l r : Expr) : Multiplies l r (product l r) := by
  fun_induction product l r with
  | case1 r l h =>
    simp only [Bool.or_eq_true, isZero_iff] at h
    rcases h with rfl | rfl
    · exact .zero_left _
    · exact .zero_right _
  | case2 r l _ h =>
    rw [isUnity_iff] at h
    subst h
    exact .one_left _
  | case3 r l _ _ h =>
    rw [isUnity_iff] at h
    subst h
    exact .one_right _
  | case4 a b p h =>
    rw [mul_exact, word?_eq_some_iff] at h
    exact .fold h
  | case5 a b h hb ha hz =>
    rw [mul_exact, word?_eq_none_iff] at h
    simp only [Bool.or_eq_true, isZero_iff, isUnity_iff, not_or] at ha hb hz
    refine .keep ⟨hz.1, hz.2, ha, hb, ?_, ?_⟩
    · rintro _ _ ⟨rfl⟩ ⟨rfl⟩
      exact h
    · rintro _ _ _ _ ⟨⟩
  | case6 a b t p h _ _ _ ih =>
    rw [mul_exact, word?_eq_some_iff] at h
    exact .merge h ih
  | case7 a b t h hb ha hz =>
    rw [mul_exact, word?_eq_none_iff] at h
    simp only [Bool.or_eq_true, isZero_iff, isUnity_iff, not_or] at ha hb hz
    refine .keep ⟨hz.1, hz.2, ha, hb, ?_, ?_⟩
    · rintro _ _ _ ⟨⟩
    · rintro _ _ _ ⟨rfl⟩ ⟨rfl⟩
      exact h
  | case8 l r hfold hmerge hr hl hz =>
    simp only [Bool.or_eq_true, isZero_iff, isUnity_iff, not_or] at hl hr hz
    exact .keep ⟨hz.1, hz.2, hl, hr, fun a b ha hb => (hfold a b ha hb).elim,
      fun a b t ha hb => (hmerge a b t ha hb).elim⟩

theorem product_inert {l r : Expr} (h : InertProduct l r) : product l r = .mul l r := by
  have hz : ¬ (l.isZero || r.isZero) = true := by
    simp [h.left_ne_zero, h.right_ne_zero]
  rw [product.eq_def, if_neg hz, if_neg (by simp [h.left_ne_one]), if_neg (by simp [h.right_ne_one])]
  split
  · next a b => rw [mul_exact, word?_eq_none_iff.mpr (h.no_fold a b rfl rfl)]
  · next a b t => rw [mul_exact, word?_eq_none_iff.mpr (h.no_merge a b t rfl rfl)]
  · rfl

/-! ## Sums and differences -/

/-- What sums and differences share. `onInt` is the operation on integers. -/
inductive Combines (op : Operator) (onInt : ℤ → ℤ → ℤ) : Expr → Expr → Expr → Prop
  | fold {a b c : Int64} (h : c.toInt = onInt a.toInt b.toInt) :
      Combines op onInt (.num a) (.num b) (.num c)
  | like_terms {l r t s : Expr} {a b c : Int64} (hl : coefficient l = (a, t))
      (hr : coefficient r = (b, t)) (h : c.toInt = onInt a.toInt b.toInt)
      (hs : Multiplies (.num c) t s) : Combines op onInt l r s
  | keep {l r : Expr} (h : InertSum onInt l r) : Combines op onInt l r (.binary op l r)

inductive Adds : Expr → Expr → Expr → Prop
  | zero_right (l : Expr) : Adds l (.num 0) l
  | zero_left (r : Expr) : Adds (.num 0) r r
  | combine {l r s : Expr} (h : Combines .add (· + ·) l r s) : Adds l r s

inductive Subtracts : Expr → Expr → Expr → Prop
  | zero_left {r s : Expr} (h : Negates r s) : Subtracts (.num 0) r s
  | zero_right (l : Expr) : Subtracts l (.num 0) l
  | combine {l r s : Expr} (h : Combines .sub (· - ·) l r s) : Subtracts l r s

theorem integers?_eq_some_iff {l r : Expr} {a b : Int64} :
    integers? l r = some (a, b) ↔ l = .num a ∧ r = .num b := by
  unfold integers?
  split
  · simp
  · next h =>
    constructor
    · rintro ⟨⟩
    · rintro ⟨rfl, rfl⟩
      exact (h _ _ rfl rfl).elim

section
variable {op : Operator} {onInt : ℤ → ℤ → ℤ} {fold : Int64 → Int64 → Option Int64}

theorem likeTerms_eq_some {l r t : Expr} {c : Int64}
    (hfold : ∀ a b, fold a b = word? (onInt a.toInt b.toInt))
    (h : likeTerms fold l r = some (c, t)) :
    coefficient l = ((coefficient l).1, t) ∧ coefficient r = ((coefficient r).1, t) ∧
      c.toInt = onInt (coefficient l).1.toInt (coefficient r).1.toInt := by
  unfold likeTerms at h
  split_ifs at h with hint heq
  rw [hfold, Option.map_eq_some_iff] at h
  obtain ⟨c', hc, hp⟩ := h
  obtain ⟨rfl, rfl⟩ := Prod.mk.inj hp
  refine ⟨rfl, ?_, word?_eq_some_iff.mp hc⟩
  rw [heq]

theorem likeTerms_eq_none_iff {l r : Expr}
    (hfold : ∀ a b, fold a b = word? (onInt a.toInt b.toInt)) :
    likeTerms fold l r = none ↔
      (l.isInteger = false → r.isInteger = false → (coefficient l).2 = (coefficient r).2 →
        ¬ Fits (onInt (coefficient l).1.toInt (coefficient r).1.toInt)) := by
  unfold likeTerms
  split_ifs with hint heq
  · rw [Bool.or_eq_true] at hint
    rcases hint with h | h <;> simp [h]
  · rw [Option.map_eq_none_iff, hfold, word?_eq_none_iff]
    simp only [Bool.or_eq_true, not_or, Bool.not_eq_true] at hint
    simp [hint.1, hint.2, heq]
  · simp [heq]

theorem combines_combine {l r : Expr}
    (hfold : ∀ a b, fold a b = word? (onInt a.toInt b.toInt)) (hl : l ≠ .num 0) (hr : r ≠ .num 0) :
    Combines op onInt l r (combine op fold l r) := by
  unfold combine
  cases hi : integers? l r with
  | some p =>
    obtain ⟨a, b⟩ := p
    obtain ⟨rfl, rfl⟩ := integers?_eq_some_iff.mp hi
    simp only [hfold]
    cases hc : word? (onInt a.toInt b.toInt) with
    | some c => exact .fold (word?_eq_some_iff.mp hc)
    | none =>
      refine .keep ⟨hl, hr, ?_, ?_⟩
      · rintro _ _ ⟨rfl⟩ ⟨rfl⟩
        exact word?_eq_none_iff.mp hc
      · rintro ⟨⟩
  | none =>
    dsimp only
    cases ht : likeTerms fold l r with
    | some p =>
      obtain ⟨ha, hb, hc⟩ := likeTerms_eq_some hfold ht
      exact .like_terms ha hb hc (multiplies_product _ _)
    | none =>
      refine .keep ⟨hl, hr, ?_, (likeTerms_eq_none_iff hfold).mp ht⟩
      rintro a b rfl rfl
      simp [integers?] at hi

theorem combine_inert {l r : Expr}
    (hfold : ∀ a b, fold a b = word? (onInt a.toInt b.toInt)) (h : InertSum onInt l r) :
    combine op fold l r = .binary op l r := by
  unfold combine
  cases hi : integers? l r with
  | some p =>
    obtain ⟨a, b⟩ := p
    obtain ⟨hl, hr⟩ := integers?_eq_some_iff.mp hi
    simp only [hfold, word?_eq_none_iff.mpr (h.no_fold _ _ hl hr)]
  | none =>
    simp only [(likeTerms_eq_none_iff hfold).mpr h.no_like_terms]

end

theorem adds_sum (l r : Expr) : Adds l r (sum l r) := by
  unfold sum
  split_ifs with hr hl
  · rw [isZero_iff] at hr
    subst hr
    exact .zero_right l
  · rw [isZero_iff] at hl
    subst hl
    exact .zero_left r
  · rw [isZero_iff] at hl hr
    exact .combine (combines_combine add_exact hl hr)

theorem sum_inert {l r : Expr} (h : InertSum (· + ·) l r) : sum l r = .add l r := by
  rw [sum, if_neg (by simp [h.right_ne_zero]), if_neg (by simp [h.left_ne_zero])]
  exact combine_inert add_exact h

theorem subtracts_difference (l r : Expr) : Subtracts l r (difference l r) := by
  unfold difference
  split_ifs with hl hr
  · rw [isZero_iff] at hl
    subst hl
    exact .zero_left (negates_negation r)
  · rw [isZero_iff] at hr
    subst hr
    exact .zero_right l
  · rw [isZero_iff] at hl hr
    exact .combine (combines_combine sub_exact hl hr)

theorem difference_inert {l r : Expr} (h : InertSum (· - ·) l r) : difference l r = .sub l r := by
  rw [difference, if_neg (by simp [h.left_ne_zero]), if_neg (by simp [h.right_ne_zero])]
  exact combine_inert sub_exact h

/-! ## Quotients -/

inductive Divides : Expr → Expr → Except Fault Expr → Prop
  | zero_divisor (l : Expr) : Divides l (.num 0) (.error ⟨.zeroDivisor, .div l (.num 0)⟩)
  | zero_left {r : Expr} (hr : r ≠ .num 0) : Divides (.num 0) r (.ok (.num 0))
  | one_right (l : Expr) : Divides l (.num 1) (.ok l)
  | fold {a b q : Int64} (hb : b.toInt ≠ 0) (h : q.toInt * b.toInt = a.toInt) :
      Divides (.num a) (.num b) (.ok (.num q))
  | keep {l r : Expr} (h : InertQuotient l r) : Divides l r (.ok (.div l r))

theorem divExact_eq_none {a b : Int64} (hb : (Expr.num b) ≠ .num 0) :
    divExact a b = none ↔ ∀ q : Int64, q.toInt * b.toInt ≠ a.toInt := by
  have hbz : b.toInt ≠ 0 := fun h => hb (by rw [toInt_eq_zero_iff.mp h])
  rw [Option.eq_none_iff_forall_ne_some]
  exact forall_congr' fun q => by rw [ne_eq, divExact_eq_some_iff]; simp [hbz]

theorem divides_quotient (l r : Expr) : Divides l r (quotient l r) := by
  unfold quotient
  split_ifs with hr hl hu
  · rw [isZero_iff] at hr
    subst hr
    exact .zero_divisor l
  · rw [isZero_iff] at hr hl
    subst hl
    exact .zero_left hr
  · rw [isUnity_iff] at hu
    subst hu
    exact .one_right l
  · rw [isZero_iff] at hr hl
    rw [isUnity_iff] at hu
    cases hi : integers? l r with
    | some p =>
      obtain ⟨a, b⟩ := p
      obtain ⟨rfl, rfl⟩ := integers?_eq_some_iff.mp hi
      dsimp only
      cases hq : divExact a b with
      | some q =>
        obtain ⟨hb, hq⟩ := divExact_eq_some_iff.mp hq
        exact .fold hb hq
      | none =>
        refine .keep ⟨hl, hr, hu, ?_⟩
        rintro _ _ q ⟨rfl⟩ ⟨rfl⟩
        exact (divExact_eq_none hr).mp hq q
    | none =>
      refine .keep ⟨hl, hr, hu, ?_⟩
      rintro a b q rfl rfl
      simp [integers?] at hi

theorem quotient_inert {l r : Expr} (h : InertQuotient l r) : quotient l r = .ok (.div l r) := by
  rw [quotient, if_neg (by simp [h.right_ne_zero]), if_neg (by simp [h.left_ne_zero]),
    if_neg (by simp [h.right_ne_one])]
  cases hi : integers? l r with
  | some p =>
    obtain ⟨a, b⟩ := p
    obtain ⟨hl, hr⟩ := integers?_eq_some_iff.mp hi
    have hnone : divExact a b = none :=
      (divExact_eq_none (hr ▸ h.right_ne_zero)).mpr fun q => h.no_fold _ _ q hl hr
    simp only [hnone]
  | none => rfl

/-! ## Powers -/

inductive Raises (form : PowerForm) : Expr → Expr → Except Fault Expr → Prop
  | zero_to_zero :
      Raises form (.num 0) (.num 0) (.error ⟨.zeroToZero, form.build (.num 0) (.num 0)⟩)
  | zero_to_negative {n : Int64} (hn : n.toInt < 0) :
      Raises form (.num 0) (.num n) (.error ⟨.zeroToNegative, form.build (.num 0) (.num n)⟩)
  | zero_base {e : Expr} (he : e ≠ .num 0) (hn : e.isNegative = false) :
      Raises form (.num 0) e (.ok (.num 0))
  | one_base (e : Expr) : Raises form (.num 1) e (.ok (.num 1))
  | zero_exponent {b : Expr} (hb : b ≠ .num 0) : Raises form b (.num 0) (.ok (.num 1))
  | one_exponent {b : Expr} (hb : b ≠ .num 0) : Raises form b (.num 1) (.ok b)
  | fold {a n p : Int64} (hn : 0 ≤ n.toInt) (h : p.toInt = a.toInt ^ n.toInt.toNat) :
      Raises form (.num a) (.num n) (.ok (.num p))
  | flatten {b e r m : Expr} {s : Except Fault Expr} (inner : PowerForm)
      (hm : Multiplies e r m) (hs : Raises form b m s) : Raises form (inner.build b e) r s
  | keep {b e : Expr} (h : InertPower b e) : Raises form b e (.ok (form.build b e))

theorem integerPower?_eq_some_iff {b e : Expr} {a : Int64} {m : ℕ} :
    integerPower? b e = some (a, m) ↔
      ∃ n : Int64, b = .num a ∧ e = .num n ∧ 0 ≤ n.toInt ∧ n.toInt.toNat = m := by
  unfold integerPower?
  split
  · next a n =>
    simp only [Int64.lt_iff_toInt_lt, Int64.toInt_zero]
    split_ifs with hn
    · constructor
      · rintro ⟨⟩
      · rintro ⟨n', _, ⟨rfl⟩, hn', _⟩
        omega
    · constructor
      · rintro ⟨rfl⟩
        exact ⟨n, rfl, rfl, by omega, rfl⟩
      · rintro ⟨n', ⟨rfl⟩, ⟨rfl⟩, _, hm⟩
        rw [hm]
  · next h =>
    constructor
    · rintro ⟨⟩
    · rintro ⟨n, rfl, rfl, _⟩
      exact (h _ _ rfl rfl).elim

theorem pow_word_exact (a n : Int64) :
    Checked.pow a n.toInt.toNat = word? (a.toInt ^ n.toInt.toNat) := by
  have hn := n.toInt_lt
  exact pow_exact a (by omega)

theorem raises_power (form : PowerForm) (b e : Expr) : Raises form b e (power form b e) := by
  fun_induction power form b e with
  | case1 b e hb he =>
    rw [isZero_iff] at hb he
    subst hb he
    exact .zero_to_zero
  | case2 b e hb _ he =>
    rw [isZero_iff] at hb
    obtain ⟨n, rfl, hn⟩ := isNegative_iff.mp he
    subst hb
    exact .zero_to_negative hn
  | case3 b e hb he hn =>
    rw [isZero_iff] at hb he
    subst hb
    exact .zero_base he (by simpa using hn)
  | case4 b e hb h =>
    rw [isZero_iff] at hb
    simp only [Bool.or_eq_true, isUnity_iff, isZero_iff] at h
    rcases h with rfl | rfl
    · exact .one_base e
    · exact .zero_exponent hb
  | case5 b e hb _ he =>
    rw [isZero_iff] at hb
    rw [isUnity_iff] at he
    subst he
    exact .one_exponent hb
  | case6 b e _ _ _ a n hi p hp =>
    obtain ⟨m, rfl, rfl, hm, rfl⟩ := integerPower?_eq_some_iff.mp hi
    rw [pow_word_exact, word?_eq_some_iff] at hp
    exact .fold hm hp
  | case7 b e hb h he a n hi hp =>
    obtain ⟨m, rfl, rfl, hm, rfl⟩ := integerPower?_eq_some_iff.mp hi
    rw [pow_word_exact, word?_eq_none_iff] at hp
    simp only [Bool.or_eq_true, isUnity_iff, isZero_iff, not_or] at hb h he
    refine .keep ⟨hb, h.1, h.2, he, ?_, ?_⟩
    · rintro (_ | _) _ _ ⟨⟩
    · rintro _ _ ⟨rfl⟩ ⟨rfl⟩ _
      exact hp
  | case8 r _ b e _ _ _ ih => exact .flatten .node (multiplies_product e r) ih
  | case9 r _ b e _ _ _ ih => exact .flatten .call (multiplies_product e r) ih
  | case10 e he b hnode hcall hb h hi =>
    simp only [Bool.or_eq_true, isUnity_iff, isZero_iff, not_or] at hb h he
    refine .keep ⟨hb, h.1, h.2, he, ?_, ?_⟩
    · rintro (_ | _) u a rfl
      · exact hnode u a rfl
      · exact hcall u a rfl
    · rintro a n rfl rfl hn
      rw [integerPower?_eq_some_iff.mpr ⟨n, rfl, rfl, hn, rfl⟩] at hi
      cases hi

theorem power_inert {b e : Expr} (form : PowerForm) (h : InertPower b e) :
    power form b e = .ok (form.build b e) := by
  have hu : ¬ (b.isUnity || e.isZero) = true := by
    simp [h.base_ne_one, h.exponent_ne_zero]
  rw [power.eq_def, if_neg (by simp [h.base_ne_zero]), if_neg hu, if_neg (by simp [h.exponent_ne_one])]
  cases hi : integerPower? b e with
  | some p =>
    obtain ⟨a, m⟩ := p
    obtain ⟨n, hb, he, hn, hm⟩ := integerPower?_eq_some_iff.mp hi
    have hnone : Checked.pow a m = none := by
      rw [← hm, pow_word_exact, word?_eq_none_iff]
      exact h.no_fold _ _ hb he hn
    simp only [hnone]
  | none =>
    dsimp only
    split
    · next u a => exact (h.base_ne_power .node u a rfl).elim
    · next u a => exact (h.base_ne_power .call u a rfl).elim
    · rfl

/-! ## The engine -/

theorem applyRule_inert {op : Operator} {l r : Expr} (h : Inert op l r) :
    applyRule op l r = .ok (.binary op l r) := by
  cases op with
  | add => rw [applyRule, sum_inert h]
  | sub => rw [applyRule, difference_inert h]
  | mul => rw [applyRule, product_inert h]
  | div => exact quotient_inert h
  | pow => exact power_inert .node h

theorem reduce_binary {op : Operator} {l r s : Expr} :
    reduce (.binary op l r) = .ok s ↔
      ∃ l', reduce l = .ok l' ∧ ∃ r', reduce r = .ok r' ∧ applyRule op l' r' = .ok s := by
  simp only [reduce, bind_eq_ok]

theorem reduce_neg {x s : Expr} :
    reduce (.neg x) = .ok s ↔ ∃ x', reduce x = .ok x' ∧ negation x' = s := by
  simp only [reduce, bind_eq_ok, Except.ok.injEq]

theorem reduce_stmt {x s : Expr} :
    reduce (.stmt x) = .ok s ↔ ∃ x', reduce x = .ok x' ∧ .stmt x' = s := by
  simp only [reduce, bind_eq_ok, Except.ok.injEq]

theorem reduceAll_eq_ok {args reduced : List Expr} :
    reduceAll args = .ok reduced ↔ List.Forall₂ (fun a a' => reduce a = .ok a') args reduced := by
  induction args generalizing reduced with
  | nil => simp only [reduceAll, Except.ok.injEq, List.forall₂_nil_left_iff, eq_comm]
  | cons a as ih =>
    simp only [reduceAll, bind_eq_ok, Except.ok.injEq, List.forall₂_cons_left_iff, ih]
    constructor
    · rintro ⟨a', ha, as', has, rfl⟩
      exact ⟨a', as', ha, has, rfl⟩
    · rintro ⟨a', as', ha, has, rfl⟩
      exact ⟨a', ha, as', has, rfl⟩

theorem forall_reduced {args reduced : List Expr} {P : Expr → Prop}
    (h : List.Forall₂ (fun a a' => reduce a = .ok a') args reduced)
    (hP : ∀ a ∈ args, ∀ a', reduce a = .ok a' → P a') : ∀ a' ∈ reduced, P a' := by
  induction h with
  | nil => simp
  | cons ha _ ih =>
    intro a' ha'
    rcases List.mem_cons.mp ha' with rfl | ha'
    · exact hP _ (by simp) a' ha
    · exact ih (fun b hb => hP b (by simp [hb])) a' ha'

/-- A call other than a power keeps its name; a power needs exactly two operands. -/
theorem reduce_call {name : String} {args : List Expr} {s : Expr} :
    reduce (.call name args) = .ok s ↔
      ∃ reduced, List.Forall₂ (fun a a' => reduce a = .ok a') args reduced ∧
        ((name ≠ "pow" ∧ s = .call name reduced) ∨
          (name = "pow" ∧ ∃ b e, reduced = [b, e] ∧ power .call b e = .ok s)) := by
  simp only [reduce, bind_eq_ok, reduceAll_eq_ok]
  refine exists_congr fun reduced => and_congr_right fun _ => ?_
  by_cases hname : name = "pow"
  · simp only [hname, if_true]
    split
    · next b e => simp
    · next h =>
      constructor
      · rintro ⟨⟩
      · rintro (⟨hne, _⟩ | ⟨_, b, e, rfl, _⟩)
        · exact (hne rfl).elim
        · exact (h b e rfl).elim
  · simp [hname, eq_comm]

end Expr

theorem simplify_eq_ok {e s : Expr} : simplify e = .ok s ↔ e.reduce = .ok s :=
  mapError_eq_ok

end SymbolicCalculus
