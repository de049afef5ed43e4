import Mathlib.Tactic.Linarith
import Mathlib.Tactic.Positivity
import SymbolicCalculus.Decimal.Shortest

/-!
# Whole numbers of 53 bits

A quotient is rounded to the nearest whole number. Dividing a number by the power of two
that leaves 53 of its bits, and multiplying it again, gives the nearest of all numbers that
have no more than 53 bits before their zeros.
-/

set_option autoImplicit false

namespace SymbolicCalculus.Decimal

/-! ## Rounded quotients -/

section
variable {n d : ℕ}

/-- Either the remainder is at most half of the divisor and is dropped, or it is at least
half of it and is filled up. -/
theorem roundedQuotient_cases (n d : ℕ) :
    (roundedQuotient n d = n / d ∧ 2 * (n % d) ≤ d) ∨
      (roundedQuotient n d = n / d + 1 ∧ d ≤ 2 * (n % d)) := by
  simp only [roundedQuotient]
  split_ifs with h
  · exact .inr ⟨rfl, by omega⟩
  · exact .inl ⟨rfl, by omega⟩

theorem roundedQuotient_mul (c : ℕ) (hd : 0 < d) : roundedQuotient (c * d) d = c := by
  unfold roundedQuotient
  rw [Nat.mul_mod_left, Nat.mul_div_cancel c hd]
  exact if_neg (by omega)

theorem roundedQuotient_scale {c : ℕ} (hc : 0 < c) :
    roundedQuotient (n * c) (d * c) = roundedQuotient n d := by
  have hlt : d * c < 2 * (n % d * c) ↔ d < 2 * (n % d) := by
    rw [← Nat.mul_assoc]
    exact Nat.mul_lt_mul_right hc
  have heq : 2 * (n % d * c) = d * c ↔ 2 * (n % d) = d := by
    rw [← Nat.mul_assoc]
    exact Nat.mul_left_inj hc.ne'
  simp only [roundedQuotient, Nat.mul_div_mul_right n d hc, Nat.mul_mod_mul_right, hlt, heq]

theorem le_roundedQuotient {a : ℕ} (hd : 0 < d) (h : a * d ≤ n) : a ≤ roundedQuotient n d := by
  have hq : a ≤ n / d := (Nat.le_div_iff_mul_le hd).mpr h
  rcases roundedQuotient_cases n d with ⟨hr, -⟩ | ⟨hr, -⟩ <;> omega

theorem roundedQuotient_le {a : ℕ} (hd : 0 < d) (h : n ≤ a * d) : roundedQuotient n d ≤ a := by
  rcases roundedQuotient_cases n d with ⟨hr, -⟩ | ⟨hr, hhalf⟩
  · rw [hr]
    exact Nat.div_le_of_le_mul (by rwa [Nat.mul_comm])
  · have hsum := Nat.div_add_mod' n d
    have hlt : n / d * d < a * d := by omega
    have := Nat.lt_of_mul_lt_mul_right hlt
    omega

/-- No multiple of the divisor is nearer. -/
theorem roundedQuotient_nearest (hd : 0 < d) (t : ℤ) :
    |(n : ℤ) - roundedQuotient n d * d| ≤ |(n : ℤ) - t * d| := by
  have hsum : (n : ℤ) = (n / d : ℕ) * d + (n % d : ℕ) := by
    exact_mod_cast (Nat.div_add_mod' n d).symm
  have hrest : n % d < d := Nat.mod_lt n hd
  -- The error is the smaller of the two parts that the remainder cuts the divisor into.
  have herror : |(n : ℤ) - roundedQuotient n d * d| ≤ (n % d : ℕ) ∧
      |(n : ℤ) - roundedQuotient n d * d| ≤ d - (n % d : ℕ) := by
    rcases roundedQuotient_cases n d with ⟨hr, hhalf⟩ | ⟨hr, hhalf⟩
    · have hdiff : (n : ℤ) - roundedQuotient n d * d = (n % d : ℕ) := by
        rw [hr]
        omega
      rw [hdiff, abs_of_nonneg (by omega)]
      omega
    · have hdiff : (n : ℤ) - roundedQuotient n d * d = (n % d : ℕ) - d := by
        rw [hr, Nat.cast_succ, add_mul, one_mul]
        omega
      rw [hdiff, abs_of_nonpos (by omega)]
      omega
  rcases le_or_gt t (n / d : ℕ) with ht | ht
  · have hbelow : t * d ≤ (n / d : ℕ) * d := mul_le_mul_of_nonneg_right ht (by omega)
    calc |(n : ℤ) - roundedQuotient n d * d| ≤ (n % d : ℕ) := herror.1
      _ ≤ (n : ℤ) - t * d := by omega
      _ ≤ |(n : ℤ) - t * d| := le_abs_self _
  · have habove : ((n / d : ℕ) + 1 : ℤ) * d ≤ t * d := mul_le_mul_of_nonneg_right ht (by omega)
    rw [add_mul, one_mul] at habove
    calc |(n : ℤ) - roundedQuotient n d * d| ≤ d - (n % d : ℕ) := herror.2
      _ ≤ -((n : ℤ) - t * d) := by omega
      _ ≤ |(n : ℤ) - t * d| := neg_le_abs _

end

/-! ## Whole numbers of 53 bits -/

/-- The nearest of the whole numbers that have at most 53 bits before their zeros, and of
two such numbers equally near the one with an even last bit. -/
def nearestWhole (n : ℕ) : ℕ :=
  roundedQuotient n (2 ^ (n.log2 - 52)) * 2 ^ (n.log2 - 52)

theorem nearestWhole_of_lt {n : ℕ} (h : n < 2 ^ 53) : nearestWhole n = n := by
  have hbits : n.log2 - 52 = 0 := by
    by_cases hn : n = 0
    · simp [hn]
    · have := (Nat.log2_lt hn).mpr h
      omega
  rw [nearestWhole, hbits, pow_zero, mul_one]
  simpa using roundedQuotient_mul n one_pos

theorem bounds_of_log2 {n : ℕ} (h : 52 ≤ n.log2) :
    2 ^ 52 * 2 ^ (n.log2 - 52) ≤ n ∧ n < 2 ^ 53 * 2 ^ (n.log2 - 52) := by
  have hn : n ≠ 0 := by
    rintro rfl
    simp at h
  rw [← pow_add, ← pow_add]
  constructor
  · exact (Nat.le_log2 hn).mp (by omega)
  · exact (Nat.log2_lt hn).mp (by omega)

theorem roundedQuotient_bits {n : ℕ} (h : 52 ≤ n.log2) :
    2 ^ 52 ≤ roundedQuotient n (2 ^ (n.log2 - 52)) ∧
      roundedQuotient n (2 ^ (n.log2 - 52)) ≤ 2 ^ 53 := by
  obtain ⟨hlow, hhigh⟩ := bounds_of_log2 h
  exact ⟨le_roundedQuotient (by positivity) hlow, roundedQuotient_le (by positivity) hhigh.le⟩

theorem log2_mul_two_pow {n : ℕ} (hn : n ≠ 0) (j : ℕ) : (n * 2 ^ j).log2 = n.log2 + j := by
  rw [Nat.log2_eq_iff (mul_ne_zero hn (by positivity)), pow_add, add_right_comm, pow_add]
  exact ⟨Nat.mul_le_mul_right _ (Nat.log2_self_le hn),
    Nat.mul_lt_mul_of_pos_right Nat.lt_log2_self (by positivity)⟩

theorem nearestWhole_mul_two_pow {n : ℕ} (hn : n ≠ 0) (j : ℕ) :
    nearestWhole (n * 2 ^ j) = nearestWhole n * 2 ^ j := by
  have hlog := log2_mul_two_pow hn j
  by_cases hbits : 52 ≤ n.log2
  · have hshift : n.log2 + j - 52 = n.log2 - 52 + j := by omega
    rw [nearestWhole, nearestWhole, hlog, hshift, pow_add, roundedQuotient_scale (by positivity),
      mul_assoc]
  · have hlt : n < 2 ^ 53 := (Nat.log2_lt hn).mp (by omega)
    have hzeros : n * 2 ^ j = n * 2 ^ (j - (n.log2 + j - 52)) * 2 ^ (n.log2 + j - 52) := by
      rw [mul_assoc, ← pow_add]
      congr 2
      omega
    rw [nearestWhole_of_lt hlt, nearestWhole, hlog]
    rw [hzeros, roundedQuotient_mul _ (by positivity), ← hzeros]

theorem two_pow_le_nearestWhole {n j : ℕ} (h : 2 ^ j ≤ n) : 2 ^ j ≤ nearestWhole n := by
  by_cases hn : n < 2 ^ 53
  · rwa [nearestWhole_of_lt hn]
  · have hne : n ≠ 0 := by omega
    have hbits : 52 ≤ n.log2 := (Nat.le_log2 hne).mpr (by omega)
    have hj : j ≤ n.log2 := (Nat.le_log2 hne).mpr h
    calc 2 ^ j ≤ 2 ^ (52 + (n.log2 - 52)) := Nat.pow_le_pow_right (by decide) (by omega)
      _ = 2 ^ 52 * 2 ^ (n.log2 - 52) := pow_add ..
      _ ≤ nearestWhole n := Nat.mul_le_mul_right _ (roundedQuotient_bits hbits).1

theorem nearestWhole_ne_zero {n : ℕ} (hn : n ≠ 0) : nearestWhole n ≠ 0 := by
  have := two_pow_le_nearestWhole (n := n) (j := 0) (by omega)
  omega

/-- No number of 53 bits with zeros behind them is nearer. -/
theorem nearestWhole_nearest (n : ℕ) {a b : ℕ} {w : ℤ} (ha : a < 2 ^ 53)
    (hw : w.natAbs = a * 2 ^ b) : |(n : ℤ) - nearestWhole n| ≤ |(n : ℤ) - w| := by
  have hnearest := roundedQuotient_nearest (n := n) (d := 2 ^ (n.log2 - 52)) (by positivity)
  rw [nearestWhole]
  push_cast at hnearest ⊢
  by_cases hb : n.log2 - 52 ≤ b
  · -- A multiple of the same power of two.
    have hdvd : (2 : ℤ) ^ (n.log2 - 52) ∣ w := by
      rw [← Int.natAbs_dvd_natAbs, hw, Int.natAbs_pow]
      exact (pow_dvd_pow 2 hb).mul_left a
    obtain ⟨t, rfl⟩ := hdvd
    rw [mul_comm _ t]
    exact hnearest t
  · -- A number with fewer zeros is no larger than the least number of as many bits as `n`.
    have hsmall : w ≤ 2 ^ 52 * 2 ^ (n.log2 - 52) := by
      have hle : a * 2 ^ b ≤ 2 ^ 53 * 2 ^ (n.log2 - 53) :=
        Nat.mul_le_mul ha.le (Nat.pow_le_pow_right (by decide) (by omega))
      have hpow : 2 ^ 53 * 2 ^ (n.log2 - 53) = 2 ^ 52 * 2 ^ (n.log2 - 52) := by
        rw [← pow_add, ← pow_add]
        congr 1
        omega
      have habs : (w.natAbs : ℤ) ≤ 2 ^ 52 * 2 ^ (n.log2 - 52) := by
        rw [hw]
        exact_mod_cast hpow ▸ hle
      exact Int.le_natAbs.trans habs
    have hlow : (2 : ℤ) ^ 52 * 2 ^ (n.log2 - 52) ≤ n := by
      exact_mod_cast (bounds_of_log2 (n := n) (by omega)).1
    calc _ ≤ |(n : ℤ) - 2 ^ 52 * 2 ^ (n.log2 - 52)| := hnearest (2 ^ 52)
      _ = n - 2 ^ 52 * 2 ^ (n.log2 - 52) := abs_of_nonneg (by linarith)
      _ ≤ n - w := by linarith
      _ ≤ |(n : ℤ) - w| := le_abs_self _

end SymbolicCalculus.Decimal
