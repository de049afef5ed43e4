import SymbolicCalculus.Proofs.Checked

/-!
# Checked arithmetic on a machine that traps

The division of words is total in the logic; on a machine it is not. Here the checked
operations are run step by step on a machine that stops at a division by zero and at the
one quotient that does not fit a word. A machine may also be strict and stop at a product that
does not fit. No checked operation stops the first machine, and a power stops neither
machine if it fits: every factor that it multiplies on the way fits with it. The exponent is a
word here and loses its digits by shifts, and the loop has no bound on its rounds.
-/

set_option autoImplicit false

namespace SymbolicCalculus.Checked

inductive Trap where
  | zeroDivisor
  | wideQuotient
  | wideProduct
  deriving DecidableEq, Repr

/-- What a machine does with a product that does not fit. -/
inductive Machine where
  | wrapping
  | strict
  deriving DecidableEq, Repr

def Machine.product : Machine → Int64 → Int64 → Except Trap Int64
  | .wrapping, a, b => .ok (a * b)
  | .strict, a, b => if Fits (a.toInt * b.toInt) then .ok (a * b) else .error .wideProduct

def division (op : Int64 → Int64 → Int64) (a b : Int64) : Except Trap Int64 :=
  if b = 0 then .error .zeroDivisor
  else if a = Int64.minValue ∧ b = -1 then .error .wideQuotient
  else .ok (op a b)

def mulOn (m : Machine) (a b : Int64) : Except Trap (Option Int64) :=
  if a = 0 ∨ b = 0 then .ok (some 0)
  else if (a = -1 ∧ b = Int64.minValue) ∨ (b = -1 ∧ a = Int64.minValue) then .ok none
  else do
    let p ← m.product a b
    let q ← division (· / ·) p b
    .ok (if q = a then some p else none)

def divExactOn (a b : Int64) : Except Trap (Option Int64) :=
  if b = 0 ∨ (a = Int64.minValue ∧ b = -1) then .ok none
  else do
    let r ← division (· % ·) a b
    if r ≠ 0 then .ok none
    else do
      let q ← division (· / ·) a b
      .ok (some q)

theorem toInt_shifted (n : Int64) : (n >>> 1).toInt = n.toInt / 2 := by
  have hcount : (1 : Int64).toBitVec.smod 64 = 1#64 := by decide
  rw [← Int64.toInt_toBitVec, Int64.toBitVec_shiftRight, hcount, BitVec.sshiftRight',
    BitVec.toInt_sshiftRight, Int64.toInt_toBitVec]
  exact Int.shiftRight_eq_div_pow _ 1

def digitOn (m : Machine) (acc base n : Int64) : Except Trap (Option Int64) :=
  if n &&& 1 = 1 then mulOn m acc base else .ok (some acc)

def powOn (m : Machine) (acc base n : Int64) : Except Trap (Option Int64) :=
  if 0 < n then do
    match ← digitOn m acc base n with
    | none => .ok none
    | some acc =>
      if (0 : Int64) < n >>> 1 then do
        match ← mulOn m base base with
        | none => .ok none
        | some square => powOn m acc square (n >>> 1)
      else .ok (some acc)
  else .ok (some acc)
termination_by n.toInt.toNat
decreasing_by
  have hshift := toInt_shifted n
  simp only [Int64.lt_iff_toInt_lt, Int64.toInt_zero] at *
  omega

/-! ## Products and quotients -/

theorem division_eq_ok (op : Int64 → Int64 → Int64) {a b : Int64} (hb : b ≠ 0)
    (hw : ¬ (a = Int64.minValue ∧ b = -1)) : division op a b = .ok (op a b) := by
  rw [division, if_neg hb, if_neg hw]

theorem eq_least_of_mul {a : Int64} (h : a * -1 = Int64.minValue) : a = Int64.minValue := by
  have ha := fits_toInt a
  have hwrapped : (a.toInt * -1).bmod (2 ^ 64) = -2 ^ 63 := by
    have hp := Int64.toInt_mul a (-1)
    rw [h] at hp
    exact hp.symm
  by_contra hne
  have hleast : a.toInt ≠ -2 ^ 63 := fun hz => hne (Int64.toInt.inj hz)
  have hfits : Fits (a.toInt * -1) := by
    unfold Fits at ha ⊢
    omega
  rw [wrapped_eq hfits] at hwrapped
  unfold Fits at ha
  omega

theorem product_eq_ok {m : Machine} {a b : Int64} (h : m = .wrapping ∨ (mul a b).isSome) :
    m.product a b = .ok (a * b) := by
  cases m with
  | wrapping => rfl
  | strict =>
    have hsome : (mul a b).isSome := h.resolve_left (by simp)
    rw [mul_exact, Option.isSome_iff_ne_none, ne_eq, word?_eq_none_iff, not_not] at hsome
    exact if_pos hsome

theorem mulOn_eq {m : Machine} {a b : Int64} (h : m = .wrapping ∨ (mul a b).isSome) :
    mulOn m a b = .ok (mul a b) := by
  unfold mulOn mul
  split_ifs with hz hm
  · rfl
  · rfl
  · have hb : b ≠ 0 := fun hb => hz (Or.inr hb)
    have hw : ¬ (a * b = Int64.minValue ∧ b = -1) := by
      rintro ⟨hp, rfl⟩
      exact hm (Or.inr ⟨rfl, eq_least_of_mul hp⟩)
    simp only [product_eq_ok h, division_eq_ok _ hb hw, bind, Except.bind]

theorem divExactOn_eq (a b : Int64) : divExactOn a b = .ok (divExact a b) := by
  unfold divExactOn divExact
  by_cases hb : b = 0
  · simp [hb]
  by_cases hw : a = Int64.minValue ∧ b = -1
  · simp [hw]
  by_cases hr : a % b = 0 <;>
    simp [hb, hw, hr, division_eq_ok _ hb hw, bind, Except.bind]

/-! ## Powers -/

theorem low_digit {n : Int64} (h : 0 ≤ n.toInt) : n &&& 1 = 1 ↔ n.toInt.toNat % 2 = 1 := by
  have hn : n.toBitVec.toNat = n.toInt.toNat := by
    rw [← Int64.toInt_toBitVec] at h ⊢
    rw [BitVec.toInt_eq_toNat_cond] at h ⊢
    split_ifs at h ⊢
    · rfl
    · omega
  rw [← Int64.toBitVec_inj, Int64.toBitVec_and, ← BitVec.toNat_inj, BitVec.toNat_and, hn]
  exact iff_of_eq (congrArg (· = 1) (Nat.and_one_is_mod _))

theorem digitOn_eq {m : Machine} {acc base n : Int64} {k : ℕ} (hk : n.toInt = k)
    (h : m = .wrapping ∨ (if k % 2 = 1 then mul acc base else some acc).isSome) :
    digitOn m acc base n = .ok (if k % 2 = 1 then mul acc base else some acc) := by
  have hlow : n &&& 1 = 1 ↔ k % 2 = 1 := by
    rw [low_digit (by omega), hk, Int.toNat_natCast]
  unfold digitOn
  by_cases h1 : k % 2 = 1
  · rw [if_pos h1] at h
    rw [if_pos (hlow.mpr h1), if_pos h1, mulOn_eq h]
  · rw [if_neg (fun hn => h1 (hlow.mp hn)), if_neg h1]

theorem pos_iff {n : Int64} {k : ℕ} (hk : n.toInt = k) : 0 < n ↔ k ≠ 0 := by
  rw [Int64.lt_iff_toInt_lt, Int64.toInt_zero]
  omega

/-- The loop over the exponent as a word does what the loop over its digits does. A strict
machine gets through it if the loop has a result: then every product in it has one. -/
theorem powOn_eq {m : Machine} {rounds : ℕ} {acc base n : Int64} {k : ℕ} (hk : n.toInt = k)
    (hrounds : k < 2 ^ rounds) (h : m = .wrapping ∨ (powLoop rounds acc base k).isSome) :
    powOn m acc base n = .ok (powLoop rounds acc base k) := by
  induction rounds generalizing acc base n k with
  | zero =>
    have h0 : k = 0 := by omega
    rw [powOn, if_neg (fun hp => (pos_iff hk).mp hp h0), powLoop]
  | succ rounds ih =>
    have hpos := pos_iff hk
    have hhalf : (n >>> 1).toInt = (k / 2 : ℕ) := by
      rw [toInt_shifted, hk]
      rfl
    have hmore := pos_iff hhalf
    rw [powOn]
    rw [powLoop] at h ⊢
    by_cases h0 : k = 0
    · rw [if_neg (fun hp => hpos.mp hp h0), if_pos h0]
    rw [if_pos (hpos.mpr h0), if_neg h0]
    rw [if_neg h0] at h
    -- A step without a result ends both loops, which a strict machine never sees.
    cases hd : if k % 2 = 1 then mul acc base else some acc with
    | none =>
      have hm : m = .wrapping := by simpa [hd] using h
      rw [digitOn_eq hk (Or.inl hm), hd]
      rfl
    | some acc' =>
      rw [digitOn_eq hk (Or.inr (by rw [hd]; rfl)), hd]
      simp only [hd] at h
      dsimp only [bind, Except.bind]
      by_cases hl : k / 2 = 0
      · rw [if_neg (fun hp => hmore.mp hp hl), if_pos hl]
      rw [if_pos (hmore.mpr hl), if_neg hl]
      rw [if_neg hl] at h
      cases hs : mul base base with
      | none =>
        have hm : m = .wrapping := by simpa [hs] using h
        rw [mulOn_eq (Or.inl hm), hs]
      | some square =>
        rw [mulOn_eq (Or.inr (by rw [hs]; rfl)), hs]
        simp only [hs] at h
        exact ih hhalf (by omega) h

/-! ## All operations -/

/-- A checked result is there exactly if the exact one fits a word, and is then the exact one. -/
def Exact (checked : Option Int64) (exact : ℤ) : Prop :=
  (checked.isSome ↔ Fits exact) ∧ ∀ r, checked = some r → r.toInt = exact

theorem exact_word? (i : ℤ) : Exact (word? i) i := by
  refine ⟨?_, fun r => word?_eq_some_iff.mp⟩
  rw [Option.isSome_iff_ne_none, ne_eq, word?_eq_none_iff, not_not]

theorem divExact_isSome_iff (a b : Int64) :
    (divExact a b).isSome ↔ b ≠ 0 ∧ b.toInt ∣ a.toInt ∧ Fits (a.toInt / b.toInt) := by
  rw [Option.isSome_iff_exists]
  constructor
  · rintro ⟨q, hq⟩
    obtain ⟨hb, hmul⟩ := divExact_eq_some_iff.mp hq
    refine ⟨fun h => hb (toInt_eq_zero_iff.mpr h), ⟨q.toInt, by rw [← hmul, mul_comm]⟩, ?_⟩
    rw [← hmul, Int.mul_ediv_cancel _ hb]
    exact fits_toInt q
  · rintro ⟨hb, hdvd, hfits⟩
    refine ⟨Int64.ofInt (a.toInt / b.toInt), divExact_eq_some_iff.mpr ⟨fun h => hb ?_, ?_⟩⟩
    · exact toInt_eq_zero_iff.mp h
    · rw [Int64.toInt_ofInt_of_le hfits.1 hfits.2, Int.ediv_mul_cancel hdvd]

/-- Checked arithmetic is exact. Sums, differences, products and powers have a result exactly
if the exact one fits, quotients exactly if the divisor is not zero, divides and leaves a
quotient that fits. On a machine the operations go through without a trap, and a power that
fits also goes through on a machine that stops at every product that does not. -/
theorem checked_arithmetic_exact (a b : Int64) :
    Exact (add a b) (a.toInt + b.toInt) ∧ Exact (sub a b) (a.toInt - b.toInt) ∧
      Exact (mul a b) (a.toInt * b.toInt) ∧ mulOn .wrapping a b = .ok (mul a b) ∧
      ((divExact a b).isSome ↔ b ≠ 0 ∧ b.toInt ∣ a.toInt ∧ Fits (a.toInt / b.toInt)) ∧
      (∀ q, divExact a b = some q → q.toInt * b.toInt = a.toInt) ∧
      divExactOn a b = .ok (divExact a b) ∧
      ∀ n : ℕ, b.toInt = n →
        Exact (pow a n) (a.toInt ^ n) ∧ powOn .wrapping 1 a b = .ok (pow a n) ∧
          (Fits (a.toInt ^ n) → powOn .strict 1 a b = .ok (pow a n)) := by
  rw [add_exact, sub_exact, mulOn_eq (Or.inl rfl), mul_exact]
  refine ⟨exact_word? _, exact_word? _, exact_word? _, rfl, divExact_isSome_iff a b,
    fun q hq => (divExact_eq_some_iff.mp hq).2, divExactOn_eq a b, fun n hn => ?_⟩
  have hbound : n < 2 ^ 63 := by
    have hb := b.toInt_lt
    omega
  have hpow := exact_word? (a.toInt ^ n)
  rw [← pow_exact a hbound] at hpow
  exact ⟨hpow, powOn_eq hn hbound (Or.inl rfl), fun hfits =>
    powOn_eq hn hbound (Or.inr (hpow.1.mpr hfits))⟩

/-- `(-2) ^ 63` is the least word. The base is squared up to `2 ^ 32`, whose square would not
fit and is not taken. -/
theorem checked_arithmetic_exact_least :
    (63 : Int64).toInt = (63 : ℕ) ∧ Fits ((-2 : Int64).toInt ^ 63) ∧
      powOn .strict 1 (-2) 63 = .ok (some Int64.minValue) := by
  have hfits : Fits ((-2 : Int64).toInt ^ 63) := by decide
  obtain ⟨_, _, _, _, _, _, _, hpow⟩ := checked_arithmetic_exact (-2) 63
  obtain ⟨_, _, hstrict⟩ := hpow 63 rfl
  exact ⟨rfl, hfits, hstrict hfits⟩

end SymbolicCalculus.Checked
