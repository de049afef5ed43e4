import SymbolicCalculus.Proofs.HigherDerivatives

/-!
# Constant folding is complete

A tree of integers and arithmetic operators has an exact integer value, or none where a
division leaves a remainder or an exponent is negative. If the value of every subtree
fits a word, simplification returns the value of the whole tree as one integer: no
shortcut for zero or one takes a fold away, and no intermediate product of a power gets
out of range.
-/

set_option autoImplicit false

namespace SymbolicCalculus
open Checked

namespace Checked

theorem exists_word {i : ℤ} (h : Fits i) : ∃ w : Int64, w.toInt = i :=
  ⟨Int64.ofInt i, Int64.toInt_ofInt_of_le h.1 h.2⟩

end Checked

/-- The exact result of an operator on integers. A quotient has to be an integer, an
exponent may not be negative, and zero has positive powers only. -/
def Operator.integer? : Operator → ℤ → ℤ → Option ℤ
  | .add, x, y => some (x + y)
  | .sub, x, y => some (x - y)
  | .mul, x, y => some (x * y)
  | .div, x, y => if y ≠ 0 ∧ y ∣ x then some (x / y) else none
  | .pow, x, n => if 0 ≤ n ∧ ¬ (x = 0 ∧ n = 0) then some (x ^ n.toNat) else none

namespace Expr

/-- The exact integer value of a tree of integers, arithmetic operators and powers in
either form. -/
def integer? : Expr → Option ℤ
  | .num v => some v.toInt
  | .binary op l r => do
    let x ← integer? l
    let y ← integer? r
    op.integer? x y
  | .neg x => do
    let x ← integer? x
    some (-x)
  | .call "pow" [b, e] => do
    let x ← integer? b
    let n ← integer? e
    Operator.pow.integer? x n
  | _ => none

theorem integer?_binary {op : Operator} {l r : Expr} {z : ℤ} :
    integer? (.binary op l r) = some z ↔
      ∃ x, integer? l = some x ∧ ∃ y, integer? r = some y ∧ op.integer? x y = some z := by
  simp only [integer?, Option.bind_eq_bind, Option.bind_eq_some_iff]

theorem integer?_neg {x : Expr} {z : ℤ} :
    integer? (.neg x) = some z ↔ ∃ y, integer? x = some y ∧ -y = z := by
  simp only [integer?, Option.bind_eq_bind, Option.bind_eq_some_iff, Option.some.injEq]

theorem integer?_call {name : String} {args : List Expr} {z : ℤ}
    (h : integer? (.call name args) = some z) :
    ∃ b e, name = "pow" ∧ args = [b, e] ∧ ∃ x, integer? b = some x ∧ ∃ n, integer? e = some n ∧
      Operator.pow.integer? x n = some z := by
  unfold integer? at h
  split at h
  all_goals try contradiction
  · next b e heq =>
    obtain ⟨rfl, rfl⟩ := Expr.call.inj heq
    simp only [Option.bind_eq_bind, Option.bind_eq_some_iff] at h
    exact ⟨b, e, rfl, rfl, h⟩

/-! ## The local rules on two integers

A shortcut that fires on integers gives what the fold would have given. -/

theorem negation_integer {a c : Int64} (h : c.toInt = -a.toInt) : negation (.num a) = .num c := by
  have hleast : a ≠ Int64.minValue := by
    rintro rfl
    have hfits := fits_toInt c
    rw [h] at hfits
    exact absurd hfits (by decide)
  rw [negation, if_neg hleast, Int64.toInt.inj ((toInt_neg_exact hleast).trans h.symm)]

theorem Multiplies.integers {a b p : Int64} {s : Expr} (h : Multiplies (.num a) (.num b) s)
    (hp : p.toInt = a.toInt * b.toInt) : s = .num p := by
  cases h with
  | zero_left _ => rw [toInt_eq_zero_iff.mp (hp.trans (zero_mul _))]
  | zero_right _ => rw [toInt_eq_zero_iff.mp (hp.trans (mul_zero _))]
  | one_left _ => rw [Int64.toInt.inj (hp.trans (one_mul _))]
  | one_right _ => rw [Int64.toInt.inj (hp.trans (mul_one _))]
  | fold hq => rw [Int64.toInt.inj (hp.trans hq.symm)]
  | keep hi => exact (hi.no_fold a b rfl rfl (hp ▸ fits_toInt p)).elim

theorem product_integers {a b p : Int64} (h : p.toInt = a.toInt * b.toInt) :
    product (.num a) (.num b) = .num p :=
  (multiplies_product _ _).integers h

theorem combine_integers {op : Operator} {onInt : ℤ → ℤ → ℤ}
    {fold : Int64 → Int64 → Option Int64} {a b c : Int64}
    (hfold : ∀ a b, fold a b = word? (onInt a.toInt b.toInt))
    (h : c.toInt = onInt a.toInt b.toInt) : combine op fold (.num a) (.num b) = .num c := by
  simp only [combine, integers?, hfold, word?_eq_some_iff.mpr h]

theorem sum_integers {a b c : Int64} (h : c.toInt = a.toInt + b.toInt) :
    sum (.num a) (.num b) = .num c := by
  unfold sum
  split_ifs with hb ha
  · obtain rfl := Expr.num.inj (isZero_iff.mp hb)
    rw [Int64.toInt.inj (h.trans (add_zero _))]
  · obtain rfl := Expr.num.inj (isZero_iff.mp ha)
    rw [Int64.toInt.inj (h.trans (zero_add _))]
  · exact combine_integers add_exact h

theorem difference_integers {a b c : Int64} (h : c.toInt = a.toInt - b.toInt) :
    difference (.num a) (.num b) = .num c := by
  unfold difference
  split_ifs with ha hb
  · obtain rfl := Expr.num.inj (isZero_iff.mp ha)
    exact negation_integer (h.trans (zero_sub _))
  · obtain rfl := Expr.num.inj (isZero_iff.mp hb)
    rw [Int64.toInt.inj (h.trans (sub_zero _))]
  · exact combine_integers sub_exact h

theorem quotient_integers {a b q : Int64} (hb : b.toInt ≠ 0) (h : q.toInt * b.toInt = a.toInt) :
    quotient (.num a) (.num b) = .ok (.num q) := by
  have hdiv := divides_quotient (.num a) (.num b)
  generalize quotient (.num a) (.num b) = s at hdiv
  cases hdiv with
  | zero_divisor _ => exact (hb rfl).elim
  | zero_left _ =>
    rcases mul_eq_zero.mp h with hq | hzero
    · rw [toInt_eq_zero_iff.mp hq]
    · exact (hb hzero).elim
  | one_right _ => rw [Int64.toInt.inj ((mul_one q.toInt).symm.trans h)]
  | fold _ hq => rw [Int64.toInt.inj (mul_right_cancel₀ hb (hq.trans h.symm))]
  | keep hi => exact (hi.no_fold a b q rfl rfl h).elim

theorem power_integers (form : PowerForm) {a n p : Int64}
    (h : Operator.pow.integer? a.toInt n.toInt = some p.toInt) :
    power form (.num a) (.num n) = .ok (.num p) := by
  simp only [Operator.integer?, Option.ite_none_right_eq_some, Option.some.injEq] at h
  obtain ⟨⟨hn, hz⟩, hp⟩ := h
  have hraise := raises_power form (.num a) (.num n)
  generalize hb : Expr.num a = b at hraise
  generalize power form b (.num n) = s at hraise
  cases hraise with
  | zero_to_zero => exact (hz ⟨by rw [Expr.num.inj hb]; rfl, rfl⟩).elim
  | zero_to_negative hneg => omega
  | zero_base _ _ =>
    obtain rfl := Expr.num.inj hb
    have hpos : n.toInt.toNat ≠ 0 := by
      intro hzero
      exact hz ⟨rfl, by omega⟩
    rw [toInt_eq_zero_iff.mp (hp.symm.trans (zero_pow hpos))]
  | one_base _ =>
    obtain rfl := Expr.num.inj hb
    rw [Int64.toInt_one, one_pow] at hp
    obtain rfl : 1 = p := Int64.toInt.inj hp
    rfl
  | zero_exponent _ =>
    rw [Int64.toInt_zero, Int.toNat_zero, pow_zero] at hp
    obtain rfl : 1 = p := Int64.toInt.inj hp
    rfl
  | one_exponent _ =>
    rw [Int64.toInt_one, Int.toNat_one, pow_one] at hp
    rw [← hb, Int64.toInt.inj hp]
  | fold _ hq =>
    obtain rfl := Expr.num.inj hb
    rw [Int64.toInt.inj (hq.trans hp)]
  | flatten inner _ _ => exact (build_ne_num inner _ _ a hb.symm).elim
  | keep hi => exact (hi.no_fold a n hb.symm rfl hn (hp ▸ fits_toInt p)).elim

/-! ## The engine -/

theorem reduce_lowered {k : Int64} (hk : 0 < k.toInt) :
    ∃ j : Int64, j.toInt = k.toInt - 1 ∧ reduce (.sub (.num k) (.num 1)) = .ok (.num j) := by
  have hrange := fits_toInt k
  have hfits : Fits (k.toInt - 1) := by
    unfold Fits at hrange ⊢
    omega
  obtain ⟨j, hj⟩ := exists_word hfits
  refine ⟨j, hj, reduce_binary.mpr ⟨_, rfl, _, rfl, ?_⟩⟩
  rw [applyRule, difference_integers hj]

theorem applyRule_integers {op : Operator} {a b c : Int64}
    (h : op.integer? a.toInt b.toInt = some c.toInt) :
    applyRule op (.num a) (.num b) = .ok (.num c) := by
  cases op with
  | add => rw [applyRule, sum_integers (Option.some.inj h).symm]
  | sub => rw [applyRule, difference_integers (Option.some.inj h).symm]
  | mul => rw [applyRule, product_integers (Option.some.inj h).symm]
  | div =>
    simp only [Operator.integer?, Option.ite_none_right_eq_some, Option.some.injEq] at h
    obtain ⟨⟨hb, hdvd⟩, hq⟩ := h
    exact quotient_integers hb (hq ▸ Int.ediv_mul_cancel hdvd)
  | pow => exact power_integers .node h

/-- Every subtree has an exact integer value, and a word can hold it. -/
def Foldable (e : Expr) : Prop :=
  ∀ t ∈ e.subtrees, ∃ z, t.integer? = some z ∧ Fits z

theorem Foldable.word {e : Expr} (h : Foldable e) : ∃ w : Int64, e.integer? = some w.toInt := by
  obtain ⟨z, hz, hfits⟩ := h e e.mem_subtrees_self
  obtain ⟨w, rfl⟩ := exists_word hfits
  exact ⟨w, hz⟩

theorem reduce_foldable {e : Expr} (h : Foldable e) :
    ∃ v : Int64, reduce e = .ok (.num v) ∧ e.integer? = some v.toInt := by
  induction e with
  | missing =>
    obtain ⟨w, hw⟩ := h.word
    cases hw
  | sym name =>
    obtain ⟨w, hw⟩ := h.word
    cases hw
  | stmt x _ =>
    obtain ⟨w, hw⟩ := h.word
    cases hw
  | num v => exact ⟨v, rfl, rfl⟩
  | binary op l r ihl ihr =>
    obtain ⟨c, hc⟩ := h.word
    obtain ⟨a, hl, ha⟩ := ihl fun t ht => h t (by simp [subtrees, ht])
    obtain ⟨b, hr, hb⟩ := ihr fun t ht => h t (by simp [subtrees, ht])
    obtain ⟨x, hx, y, hy, hop⟩ := integer?_binary.mp hc
    obtain rfl : x = a.toInt := Option.some.inj (hx.symm.trans ha)
    obtain rfl : y = b.toInt := Option.some.inj (hy.symm.trans hb)
    exact ⟨c, reduce_binary.mpr ⟨_, hl, _, hr, applyRule_integers hop⟩, hc⟩
  | neg x ih =>
    obtain ⟨c, hc⟩ := h.word
    obtain ⟨a, hx, ha⟩ := ih fun t ht => h t (by simp [subtrees, ht])
    obtain ⟨y, hy, hneg⟩ := integer?_neg.mp hc
    obtain rfl : y = a.toInt := Option.some.inj (hy.symm.trans ha)
    exact ⟨c, reduce_neg.mpr ⟨_, hx, negation_integer hneg.symm⟩, hc⟩
  | call name args ih =>
    obtain ⟨c, hc⟩ := h.word
    obtain ⟨b, e, rfl, rfl, x, hx, n, hn, hpow⟩ := integer?_call hc
    obtain ⟨a, hb, ha⟩ := ih b (by simp) fun t ht => h t (by simp [subtrees, subtreesAll, ht])
    obtain ⟨k, he, hk⟩ := ih e (by simp) fun t ht => h t (by simp [subtrees, subtreesAll, ht])
    obtain rfl : x = a.toInt := Option.some.inj (hx.symm.trans ha)
    obtain rfl : n = k.toInt := Option.some.inj (hn.symm.trans hk)
    refine ⟨c, ?_, hc⟩
    rw [reduce_power_call, hb, he]
    exact power_integers .call hpow

end Expr

/-- A tree of integers in which every subtree has an exact value that fits a word is
simplified to its value. -/
theorem simplify_foldable (e : Expr) (h : e.Foldable) :
    ∃ v : Int64, simplify e = .ok (.num v) ∧ e.integer? = some v.toInt := by
  obtain ⟨v, hv, hvalue⟩ := Expr.reduce_foldable h
  exact ⟨v, simplify_eq_ok.mpr hv, hvalue⟩

/-- `pow(-2, 63) / -(0 - 2)`: the power is the least word, every square on the way to it
fits, and zero minus two goes through the rule for negations. -/
theorem simplify_foldable_least :
    let e : Expr := .div (.call "pow" [.num (-2), .num 63]) (.neg (.sub (.num 0) (.num 2)))
    e.Foldable ∧ simplify e = .ok (.num (-4611686018427387904)) := by
  intro e
  have h : e.Foldable := by
    intro t ht
    simp only [e, Expr.subtrees, Expr.subtreesAll, List.cons_append, List.nil_append,
      List.append_nil, List.mem_cons, List.not_mem_nil, or_false] at ht
    rcases ht with rfl | rfl | rfl | rfl | rfl | rfl | rfl | rfl
    all_goals exact ⟨_, rfl, by decide⟩
  obtain ⟨v, hv, hvalue⟩ := simplify_foldable e h
  have hexact : e.integer? = some (-4611686018427387904) := by decide
  obtain rfl : v = -4611686018427387904 :=
    Int64.toInt.inj (Option.some.inj (hvalue.symm.trans hexact))
  exact ⟨h, hv⟩

end SymbolicCalculus
