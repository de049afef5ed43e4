import Mathlib.Data.Int.Order.Basic
import Mathlib.Tactic.Linarith
import SymbolicCalculus.Checked

/-!
# Checked arithmetic is exact

Every checked operation is the exact operation on integers followed by one
question: does the result fit a word? Sums, differences, products and quotients
inspect the wrapped result; powers multiply and square repeatedly, and never pass
through an intermediate that does not fit when the power itself does.
-/

set_option autoImplicit false

namespace SymbolicCalculus.Checked

def Fits (i : ℤ) : Prop := -2 ^ 63 ≤ i ∧ i < 2 ^ 63

instance (i : ℤ) : Decidable (Fits i) :=
  inferInstanceAs (Decidable (_ ∧ _))

def word? (i : ℤ) : Option Int64 :=
  if Fits i then some (Int64.ofInt i) else none

theorem fits_toInt (a : Int64) : Fits a.toInt :=
  ⟨a.le_toInt, a.toInt_lt⟩

theorem word?_eq_some_iff {i : ℤ} {r : Int64} : word? i = some r ↔ r.toInt = i := by
  unfold word?
  constructor
  · intro h
    split at h
    · next hf =>
      cases h
      exact Int64.toInt_ofInt_of_le hf.1 hf.2
    · cases h
  · rintro rfl
    rw [if_pos (fits_toInt r), Int64.ofInt_toInt]

theorem word?_eq_none_iff {i : ℤ} : word? i = none ↔ ¬ Fits i := by
  simp [word?]

@[simp] theorem word?_toInt (a : Int64) : word? a.toInt = some a :=
  word?_eq_some_iff.mpr rfl

theorem wrapped_eq {i : ℤ} (h : Fits i) : i.bmod (2 ^ 64) = i := by
  obtain ⟨hl, hu⟩ := h
  apply Int.bmod_eq_of_le <;> omega

/-- A word that holds the wrapped result holds the exact one if that fits. -/
theorem some_wrapped {i : ℤ} {r : Int64} (hr : r.toInt = i.bmod (2 ^ 64)) (h : Fits i) :
    some r = word? i := by
  rw [wrapped_eq h] at hr
  exact (word?_eq_some_iff.mpr hr).symm

/-! ## Sums and differences -/

theorem add_exact (a b : Int64) : add a b = word? (a.toInt + b.toInt) := by
  have ha := fits_toInt a
  have hb := fits_toInt b
  have hs := Int64.toInt_add a b
  unfold add
  simp only [Int64.lt_iff_toInt_lt, Int64.toInt_zero]
  by_cases hf : Fits (a.toInt + b.toInt)
  · rw [if_neg (by rw [hs, wrapped_eq hf]; omega)]
    exact some_wrapped hs hf
  · rw [word?_eq_none_iff.mpr hf, if_pos]
    rw [hs, Int.bmod_def]
    unfold Fits at ha hb hf
    omega

theorem sub_exact (a b : Int64) : sub a b = word? (a.toInt - b.toInt) := by
  have ha := fits_toInt a
  have hb := fits_toInt b
  have hd := Int64.toInt_sub a b
  unfold sub
  simp only [Int64.lt_iff_toInt_lt, Int64.toInt_zero]
  by_cases hf : Fits (a.toInt - b.toInt)
  · rw [if_neg (by rw [hd, wrapped_eq hf]; omega)]
    exact some_wrapped hd hf
  · rw [word?_eq_none_iff.mpr hf, if_pos]
    rw [hd, Int.bmod_def]
    unfold Fits at ha hb hf
    omega

/-! ## Products and quotients -/

theorem toInt_eq_zero_iff {a : Int64} : a.toInt = 0 ↔ a = 0 := by
  rw [← Int64.toInt_zero, Int64.toInt_inj]

/-- Only the least word divided by `-1` has a quotient that wraps. -/
theorem toInt_div_exact {a b : Int64} (h : ¬ (a = Int64.minValue ∧ b = -1)) :
    (a / b).toInt = a.toInt.tdiv b.toInt := by
  by_cases ha : a = Int64.minValue
  · exact Int64.toInt_div_of_ne_right a b fun hb => h ⟨ha, hb⟩
  · exact Int64.toInt_div_of_ne_left a b ha

/-- If dividing the wrapped product back gives the first factor, then nothing was
lost: wrapped and exact product differ by less than the second factor, and
by a multiple of the size of a word. -/
theorem fits_of_div_back {a b : Int64} (hb : b ≠ 0)
    (hm : ¬ ((a = -1 ∧ b = Int64.minValue) ∨ (b = -1 ∧ a = Int64.minValue)))
    (h : a * b / b = a) : Fits (a.toInt * b.toInt) := by
  have hp := Int64.toInt_mul a b
  have hbz : b.toInt ≠ 0 := fun hz => hb (toInt_eq_zero_iff.mp hz)
  have hfb := fits_toInt b
  have hfp := fits_toInt (a * b)
  by_cases hw : a * b = Int64.minValue ∧ b = -1
  · have hfa := fits_toInt a
    have ha : a.toInt ≠ -2 ^ 63 := fun hz => hm (Or.inr ⟨hw.2, Int64.toInt.inj hz⟩)
    have hb1 : b.toInt = -1 := by rw [hw.2]; rfl
    unfold Fits at hfa ⊢
    rw [hb1]
    omega
  · have hq := toInt_div_exact hw
    rw [h] at hq
    have hback := Int.tdiv_mul_add_tmod (a * b).toInt b.toInt
    rw [← hq] at hback
    have hrem : ((a * b).toInt.tmod b.toInt).natAbs < b.toInt.natAbs := by
      rw [Int.natAbs_tmod]
      exact Nat.mod_lt _ (Int.natAbs_pos.mpr hbz)
    rw [Int.bmod_def] at hp
    unfold Fits at hfb hfp ⊢
    generalize a.toInt * b.toInt = x at *
    omega

theorem mul_exact (a b : Int64) : mul a b = word? (a.toInt * b.toInt) := by
  simp only [mul]
  split_ifs with hz hm hback
  · have hx : a.toInt * b.toInt = 0 := by
      rcases hz with rfl | rfl <;> simp
    rw [hx]
    exact (word?_eq_some_iff.mpr rfl).symm
  · have hx : a.toInt * b.toInt = 2 ^ 63 := by
      rcases hm with ⟨rfl, rfl⟩ | ⟨rfl, rfl⟩ <;> rfl
    rw [hx]
    exact (word?_eq_none_iff.mpr (by decide)).symm
  · have hf := fits_of_div_back (fun h => hz (Or.inr h)) hm hback
    exact some_wrapped (Int64.toInt_mul a b) hf
  · refine (word?_eq_none_iff.mpr fun hf => hback ?_).symm
    have hbz : b.toInt ≠ 0 := fun h => hz (Or.inr (toInt_eq_zero_iff.mp h))
    have hp : (a * b).toInt = a.toInt * b.toInt := by
      rw [Int64.toInt_mul, wrapped_eq hf]
    apply Int64.toInt.inj
    rw [Int64.toInt_div, hp, Int.mul_tdiv_cancel _ hbz, wrapped_eq (fits_toInt a)]

theorem divExact_eq_some_iff {a b q : Int64} :
    divExact a b = some q ↔ b.toInt ≠ 0 ∧ q.toInt * b.toInt = a.toInt := by
  have hrem : a % b = 0 ↔ a.toInt.tmod b.toInt = 0 := by
    rw [← toInt_eq_zero_iff, Int64.toInt_mod]
  unfold divExact
  constructor
  · intro h
    split_ifs at h with hc
    simp only [not_or, not_not] at hc
    obtain ⟨hb, hw, hm⟩ := hc
    cases h
    refine ⟨fun hz => hb (toInt_eq_zero_iff.mp hz), ?_⟩
    rw [toInt_div_exact hw]
    exact Int.tdiv_mul_cancel_of_tmod_eq_zero (hrem.mp hm)
  · rintro ⟨hb, hq⟩
    have hw : ¬ (a = Int64.minValue ∧ b = -1) := by
      rintro ⟨rfl, rfl⟩
      have hf := fits_toInt q
      have hq' : q.toInt * -1 = -2 ^ 63 := hq
      unfold Fits at hf
      omega
    have hd : b.toInt ∣ a.toInt := ⟨q.toInt, by rw [← hq, mul_comm]⟩
    rw [if_neg]
    · congr 1
      apply Int64.toInt.inj
      rw [toInt_div_exact hw, ← hq, Int.mul_tdiv_cancel _ hb]
    · simp only [not_or, not_not]
      exact ⟨fun hz => hb (toInt_eq_zero_iff.mpr hz), hw,
        hrem.mpr (Int.tmod_eq_zero_of_dvd hd)⟩

/-! ## Powers -/

theorem fits_of_mul_pos {x k : ℤ} (hk : 1 ≤ k) (h : Fits (x * k)) : Fits x := by
  obtain ⟨hl, hu⟩ := h
  rcases le_or_gt 0 x with hx | hx
  · constructor
    · omega
    · nlinarith
  · constructor
    · nlinarith
    · omega

/-- No square is `2^63`, so a square that does not fit lies beyond both ends. -/
theorem square_beyond {x : ℤ} (h : ¬ Fits (x * x)) : 2 ^ 63 < x * x := by
  have hsq : 0 ≤ x * x := mul_self_nonneg x
  have hge : 2 ^ 63 ≤ x * x := by
    unfold Fits at h
    omega
  by_contra hle
  have hu : x ≤ 3037000499 := by nlinarith
  have hl : -3037000499 ≤ x := by nlinarith
  nlinarith

theorem not_fits_mul_of_square {acc x : ℤ} {n : ℕ} (hn : n ≠ 0) (hacc : acc ≠ 0)
    (hx : 2 ^ 63 < x) : ¬ Fits (acc * x ^ n) := by
  have hpow : x ≤ x ^ n := le_self_pow₀ (by omega) hn
  rintro ⟨hl, hu⟩
  rcases lt_or_gt_of_ne hacc with ha | ha <;> nlinarith

/-- One round: the lowest digit goes into the accumulator, the others are read
with the squared base. -/
theorem power_digits (acc base : ℤ) (n : ℕ) :
    acc * base ^ n = acc * base ^ (n % 2) * (base * base) ^ (n / 2) := by
  rw [mul_assoc, ← pow_two, ← pow_mul, ← pow_add, Nat.mod_add_div]

theorem digit_exact (acc base : Int64) (n : ℕ) :
    (if n % 2 = 1 then mul acc base else some acc) =
      word? (acc.toInt * base.toInt ^ (n % 2)) := by
  rcases Nat.mod_two_eq_zero_or_one n with h | h
  · simp [h]
  · simp [h, mul_exact]

/-- What is left to multiply: `acc` times `base` to the power of the digits not
yet read. A zero can only come from a zero base, so no round fails on a factor
that a later zero would have cancelled. -/
theorem powLoop_exact (rounds : ℕ) (acc base : Int64) (n : ℕ) (hn : n < 2 ^ rounds)
    (hz : acc.toInt = 0 → base.toInt = 0) :
    powLoop rounds acc base n = word? (acc.toInt * base.toInt ^ n) := by
  induction rounds generalizing acc base n with
  | zero =>
    have h0 : n = 0 := by omega
    simp [powLoop, h0]
  | succ rounds ih =>
    rw [powLoop]
    by_cases h0 : n = 0
    · simp [h0]
    rw [if_neg h0, digit_exact, power_digits acc.toInt base.toInt n]
    cases hacc : word? (acc.toInt * base.toInt ^ (n % 2)) with
    | none =>
      have hno := word?_eq_none_iff.mp hacc
      refine (word?_eq_none_iff.mpr fun hf => hno (fits_of_mul_pos ?_ hf)).symm
      have hb : base.toInt ≠ 0 := by
        intro hb
        rw [hb] at hno
        rcases Nat.mod_two_eq_zero_or_one n with h | h
        · rw [h, pow_zero, mul_one] at hno
          exact hno (fits_toInt acc)
        · rw [h, pow_one, mul_zero] at hno
          exact hno (by decide)
      exact one_le_pow₀ (mul_self_pos.mpr hb)
    | some acc' =>
      have ha := word?_eq_some_iff.mp hacc
      have hz' : acc'.toInt = 0 → base.toInt = 0 := by
        intro h
        rw [ha] at h
        rcases mul_eq_zero.mp h with h | h
        · exact hz h
        · exact eq_zero_of_pow_eq_zero h
      rw [← ha]
      by_cases h1 : n / 2 = 0
      · simp [h1]
      simp only [if_neg h1, mul_exact]
      cases hsq : word? (base.toInt * base.toInt) with
      | none =>
        have hbeyond := square_beyond (word?_eq_none_iff.mp hsq)
        have hne : acc'.toInt ≠ 0 := by
          intro h
          rw [hz' h] at hbeyond
          omega
        exact (word?_eq_none_iff.mpr (not_fits_mul_of_square h1 hne hbeyond)).symm
      | some square =>
        have hs := word?_eq_some_iff.mp hsq
        rw [← hs]
        apply ih
        · omega
        · intro h
          rw [hs, hz' h, mul_zero]

/-- `pow` is exact for every exponent a word can hold. -/
theorem pow_exact (a : Int64) {n : ℕ} (hn : n < 2 ^ 63) : pow a n = word? (a.toInt ^ n) := by
  rw [pow, powLoop_exact 63 1 a n hn]
  · rw [Int64.toInt_one, one_mul]
  · intro h
    exact absurd h (by decide)

end SymbolicCalculus.Checked
