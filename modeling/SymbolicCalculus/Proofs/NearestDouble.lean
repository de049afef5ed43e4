import Mathlib.Tactic.Ring
import SymbolicCalculus.Decimal.Format
import SymbolicCalculus.Proofs.ExactIntegers
import SymbolicCalculus.Proofs.NearestWhole

/-!
# The double nearest to an integer

An integer is read as the double of the nearest number of 53 bits, and as infinity from
`2^1024` on. The argument follows the bits: what is shifted out of a mantissa decides how it
is rounded, a mantissa of 53 bits survives packing, and the bits of a double mean the same
whether they are unpacked or read as an exact number.
-/

set_option autoImplicit false

namespace SymbolicCalculus.Decimal

/-! ## Mantissas -/

open Float.Model (UnpackedFloat totalExponent)
open Float.Model.UnpackedFloat (Sign ExtendedMantissa shiftToTargetExponent roundWithAccuracy)

/-- The number `M` without its last `n` bits, of which the first is kept as it is and the
others as far as some bit is set. -/
structure Shifted (M n : ℕ) (em : ExtendedMantissa) : Prop where
  mantissa : em.mantissa = M / 2 ^ n
  roundBit : em.roundBit = true ↔ 2 ^ n ≤ 2 * (M % 2 ^ n)
  stickyBit : em.stickyBit = true ↔ 2 * (M % 2 ^ n) ≠ 0 ∧ 2 * (M % 2 ^ n) ≠ 2 ^ n

theorem Shifted.shiftRightOne {M n : ℕ} {em : ExtendedMantissa} (h : Shifted M n em) :
    Shifted M (n + 1) em.shiftRightOne := by
  have hmod : M % 2 ^ (n + 1) = M % 2 ^ n + 2 ^ n * (M / 2 ^ n % 2) := Nat.mod_pow_succ
  have hlt : M % 2 ^ n < 2 ^ n := Nat.mod_lt M (by positivity)
  have hpow : 2 ^ (n + 1) = 2 * 2 ^ n := pow_succ' 2 n
  refine ⟨?_, ?_, ?_⟩
  · rw [ExtendedMantissa.shiftRightOne, h.mantissa, Nat.div_div_eq_div_mul, pow_succ]
  · rw [ExtendedMantissa.shiftRightOne, h.mantissa, hmod, hpow, bne_iff_ne]
    rcases Nat.mod_two_eq_zero_or_one (M / 2 ^ n) with hbit | hbit <;> rw [hbit] <;> omega
  · rw [ExtendedMantissa.shiftRightOne, hmod, hpow, Bool.or_eq_true, h.roundBit, h.stickyBit]
    rcases Nat.mod_two_eq_zero_or_one (M / 2 ^ n) with hbit | hbit <;> rw [hbit] <;> omega

theorem shifted_shiftRight (M n : ℕ) :
    Shifted M n (ExtendedMantissa.ofMantissaAndAccuracy M .exact >>> n) := by
  induction n with
  | zero =>
    show Shifted M 0 ⟨M, false, false⟩
    exact ⟨by simp, by simp [Nat.mod_one], by simp [Nat.mod_one]⟩
  | succ n ih => exact ih.shiftRightOne

theorem Shifted.roundedMantissa {M n : ℕ} {em : ExtendedMantissa} (h : Shifted M n em) :
    em.roundedMantissa = roundedQuotient M (2 ^ n) := by
  obtain ⟨mantissa, roundBit, stickyBit⟩ := em
  obtain ⟨hmantissa, hround, hsticky⟩ := h
  simp only at hmantissa hround hsticky
  subst hmantissa
  have hpos : 0 < 2 ^ n := by positivity
  simp only [roundedQuotient]
  cases roundBit with
  | false =>
    have hlow : 2 * (M % 2 ^ n) < 2 ^ n := by simpa using hround
    rw [if_neg (by omega)]
    cases stickyBit <;> rfl
  | true =>
    have hhigh : 2 ^ n ≤ 2 * (M % 2 ^ n) := by simpa using hround
    cases stickyBit with
    | false =>
      have htie : 2 * (M % 2 ^ n) = 2 ^ n := by
        by_contra hne
        exact absurd (hsticky.mpr ⟨by omega, hne⟩) (by decide)
      show M / 2 ^ n + M / 2 ^ n % 2 = _
      split_ifs <;> omega
    | true =>
      have hmore := (hsticky.mp rfl).2
      rw [if_pos (by omega)]
      rfl

/-- A mantissa is brought to 53 bits, if the number is not too small for that. -/
theorem shiftToTargetExponent_eq {M : ℕ} {E : ℤ} (hbits : 52 ≤ M.log2)
    (hsize : -1022 ≤ E + M.log2) :
    shiftToTargetExponent .binary64 M E .exact =
      (ExtendedMantissa.ofMantissaAndAccuracy M .exact >>> (M.log2 - 52),
        E + (M.log2 - 52 : ℕ)) := by
  have htarget : Float.Model.Format.binary64.targetExponent (totalExponent M E) =
      max (M.log2 + 1 + E - 53) (-1074) := rfl
  have hamount : (Float.Model.Format.binary64.targetExponent (totalExponent M E) - E).toNat =
      M.log2 - 52 := by
    rw [htarget]
    omega
  unfold shiftToTargetExponent UnpackedFloat.shiftToExponent
  simp only [hamount]

theorem roundWithAccuracy_of_shifts {s : Sign} {M : ℕ} {E e₁ e₂ : ℤ} {em₁ em₂ : ExtendedMantissa}
    (h₁ : shiftToTargetExponent .binary64 M E .exact = (em₁, e₁))
    (h₂ : shiftToTargetExponent .binary64 em₁.roundedMantissa e₁ .exact = (em₂, e₂))
    (hm : 0 < em₂.mantissa) :
    roundWithAccuracy .binary64 s M E .exact = .finite s em₂.mantissa e₂ hm := by
  unfold roundWithAccuracy
  rw [h₁]
  dsimp only
  rw [h₂]
  exact dif_neg hm.ne'

/-- Rounding gives the nearest number of 53 bits, as a mantissa of exactly that many. -/
theorem roundWithAccuracy_eq (s : Sign) {M : ℕ} {E : ℤ} (hbits : 52 ≤ M.log2)
    (hsize : -1022 ≤ E + M.log2) :
    ∃ m e hm, roundWithAccuracy .binary64 s M E .exact = .finite s m e hm ∧
      2 ^ 52 ≤ m ∧ m < 2 ^ 53 ∧ (m : ℚ) * 2 ^ e = nearestWhole M * 2 ^ E := by
  obtain ⟨hlow, hhigh⟩ := roundedQuotient_bits hbits
  have hrounded := (shifted_shiftRight M (M.log2 - 52)).roundedMantissa
  generalize hc : roundedQuotient M (2 ^ (M.log2 - 52)) = c at *
  have hne : c ≠ 0 := by omega
  have hcbits : 52 ≤ c.log2 := (Nat.le_log2 hne).mpr hlow
  obtain ⟨hclow, hchigh⟩ := bounds_of_log2 hcbits
  -- The second shift has something to do only where rounding has led to `2^53`.
  have hdvd : 2 ^ (c.log2 - 52) ∣ c := by
    by_cases htop : c = 2 ^ 53
    · rw [htop, Nat.log2_two_pow]
      exact pow_dvd_pow 2 (by decide)
    · have : c.log2 < 53 := (Nat.log2_lt hne).mpr (by omega)
      have hzero : c.log2 - 52 = 0 := by omega
      rw [hzero]
      exact one_dvd c
  have hshift : shiftToTargetExponent .binary64
      (ExtendedMantissa.ofMantissaAndAccuracy M .exact >>> (M.log2 - 52)).roundedMantissa
      (E + (M.log2 - 52 : ℕ)) .exact =
        (ExtendedMantissa.ofMantissaAndAccuracy c .exact >>> (c.log2 - 52),
          E + (M.log2 - 52 : ℕ) + (c.log2 - 52 : ℕ)) := by
    rw [hrounded]
    exact shiftToTargetExponent_eq hcbits (by omega)
  have hmantissa := (shifted_shiftRight c (c.log2 - 52)).mantissa
  generalize ExtendedMantissa.ofMantissaAndAccuracy c .exact >>> (c.log2 - 52) = em at *
  have hmlow : 2 ^ 52 ≤ em.mantissa := by
    rw [hmantissa]
    exact (Nat.le_div_iff_mul_le (by positivity)).mpr hclow
  have hmhigh : em.mantissa < 2 ^ 53 := by
    rw [hmantissa]
    exact (Nat.div_lt_iff_lt_mul (by positivity)).mpr hchigh
  have hback : (em.mantissa : ℚ) * 2 ^ (c.log2 - 52) = c := by
    rw [hmantissa]
    exact_mod_cast Nat.div_mul_cancel hdvd
  have hm : 0 < em.mantissa := by omega
  refine ⟨em.mantissa, _, hm,
    roundWithAccuracy_of_shifts (shiftToTargetExponent_eq hbits hsize) hshift hm, hmlow, hmhigh, ?_⟩
  rw [nearestWhole, hc, zpow_add₀ two_ne_zero, zpow_add₀ two_ne_zero, zpow_natCast, zpow_natCast,
    Nat.cast_mul, ← hback, Nat.cast_pow, Nat.cast_ofNat]
  ring

/-! ## Packing -/

open Float.Model.UnpackedFloat (packComponents unpackMantissa unpackExponent unpackSign)

theorem unpackSign_packComponents {spec : Float.Model.Format} (s : Sign)
    (e : BitVec spec.exponentBits) (m : BitVec spec.mantissaBitsWithoutImplicit) :
    unpackSign (packComponents spec s e m) = s.toBitVec := by
  show BitVec.cast _ (BitVec.extractLsb _ _ (s.toBitVec ++ e ++ m)) = s.toBitVec
  ext i hi
  obtain rfl : i = 0 := by omega
  simp [BitVec.getLsbD_append, BitVec.getElem_append]

theorem ofBitVec_toBitVec (s : Sign) : Sign.ofBitVec s.toBitVec = s := by
  cases s <;> rfl

theorem toNat_one_append (m : BitVec 52) : (1#1 ++ m).toNat = 2 ^ 52 + m.toNat := by
  rw [BitVec.toNat_append, ← Nat.shiftLeft_add_eq_or_of_lt m.isLt]
  rfl

theorem unpack_pack_finite {s : Sign} {m : ℕ} {e : ℤ} (hm : 0 < m) (hlow : 2 ^ 52 ≤ m)
    (hhigh : m < 2 ^ 53) (hmin : -1074 ≤ e) (hmax : e ≤ 971) :
    (Float.Model.pack (.finite s m e hm)).unpack = .finite s m e hm := by
  have hlog : m.log2 + 1 = 53 := by
    have := (Nat.log2_eq_iff hm.ne').mpr ⟨hlow, hhigh⟩
    omega
  have hpack : UnpackedFloat.pack .binary64 (.finite s m e hm) =
      packComponents .binary64 s (BitVec.ofNat 11 (e + 1023 + 52).toNat) (BitVec.ofNat 52 m) := by
    show (if 2 ^ 11 ≤ (e + 1023 + 52).toNat + 1 then _ else if m.log2 + 1 = 53 then _ else _) = _
    rw [if_neg (by omega), if_pos hlog]
    rfl
  have hexponent : (BitVec.ofNat 11 (e + 1023 + 52).toNat).toNat = (e + 1023 + 52).toNat := by
    rw [BitVec.toNat_ofNat, Nat.mod_eq_of_lt (by omega)]
  have hfull : BitVec.ofNat 11 (e + 1023 + 52).toNat ≠ -1#11 := by
    intro h
    rw [h, show (-1#11).toNat = 2047 from rfl] at hexponent
    omega
  have hzero : BitVec.ofNat 11 (e + 1023 + 52).toNat ≠ 0#11 := by
    intro h
    rw [h, BitVec.toNat_zero] at hexponent
    omega
  have hmantissa : (1#1 ++ BitVec.ofNat 52 m).toNat = m := by
    rw [toNat_one_append, BitVec.toNat_ofNat]
    omega
  show UnpackedFloat.unpack .binary64 (UnpackedFloat.pack .binary64 (.finite s m e hm)) = _
  rw [hpack]
  delta UnpackedFloat.unpack
  lift_lets
  intro mantissa exponent e' signBit sign
  have hmantissa' : mantissa = BitVec.ofNat 52 m := UnpackedFloat.unpackMantissa_packComponents
  have hexponent' : exponent = BitVec.ofNat 11 (e + 1023 + 52).toNat :=
    UnpackedFloat.unpackExponent_packComponents
  have hsign : sign = s := by
    show Sign.ofBitVec (unpackSign _) = s
    rw [unpackSign_packComponents, ofBitVec_toBitVec]
  rw [if_neg (hexponent' ▸ hfull), if_neg (hexponent' ▸ hzero), UnpackedFloat.finite.injEq]
  refine ⟨hsign, ?_, ?_⟩
  · rw [hmantissa']
    exact hmantissa
  · show (exponent.toNat : ℤ) - (1023 + 52) = e
    rw [hexponent', hexponent]
    omega

theorem pack_overflow {s : Sign} {m : ℕ} {e : ℤ} (hm : 0 < m) (he : 972 ≤ e) :
    Float.Model.pack (.finite s m e hm) = Float.Model.pack (.infinity s) := by
  have hpack : UnpackedFloat.pack .binary64 (.finite s m e hm) =
      UnpackedFloat.packedInfinity .binary64 s := by
    show (if 2 ^ 11 ≤ (e + 1023 + 52).toNat + 1 then _ else _) = _
    rw [if_pos (by omega)]
  show Float.Model.mk _ _ = Float.Model.mk _ _
  rw [Float.Model.mk.injEq]
  exact congrArg UInt64.ofBitVec hpack

theorem unpack_pack_infinity (s : Sign) :
    (Float.Model.pack (.infinity s)).unpack = .infinity s := by
  cases s <;> rfl

theorem unpack_pack_zero (s : Sign) : (Float.Model.pack (.zero s)).unpack = .zero s := by
  cases s <;> rfl

/-! ## Doubles that stand for a whole number -/

/-- A double of sign `s` that is `v` apart from the sign, or infinite where `v` is too large
for a double. -/
inductive StandsFor (s : Sign) (v : ℕ) : UnpackedFloat → Prop
  | zero (hv : v = 0) : StandsFor s v (.zero s)
  | finite {m : ℕ} {e : ℤ} {hm : 0 < m} (hlow : 2 ^ 52 ≤ m) (hhigh : m < 2 ^ 53)
      (hvalue : (m : ℚ) * 2 ^ e = v) (hv : v < 2 ^ 1024) : StandsFor s v (.finite s m e hm)
  | infinity (hv : 2 ^ 1024 ≤ v) : StandsFor s v (.infinity s)

section
variable {s : Sign} {m v : ℕ} {e : ℤ}

theorem exponent_bounds {p : ℕ} (hlow : 2 ^ p ≤ m) (hhigh : m < 2 ^ (p + 1))
    (hvalue : (m : ℚ) * 2 ^ e = v) (j : ℕ) :
    (2 ^ j ≤ v → j < p + 1 + e) ∧ (v < 2 ^ j → p + e < j) := by
  have hpos : (0 : ℚ) < 2 ^ e := zpow_pos two_pos e
  constructor
  · intro h
    have hle : (2 : ℚ) ^ (j : ℤ) ≤ v := by exact_mod_cast h
    have hlt : (v : ℚ) < 2 ^ (p + 1 + e) := by
      rw [zpow_add₀ two_ne_zero, ← hvalue]
      exact mul_lt_mul_of_pos_right (by exact_mod_cast hhigh) hpos
    exact (zpow_lt_zpow_iff_right₀ one_lt_two).mp (hle.trans_lt hlt)
  · intro h
    have hle : (2 : ℚ) ^ (p + e) ≤ v := by
      rw [zpow_add₀ two_ne_zero, ← hvalue]
      exact mul_le_mul_of_nonneg_right (by exact_mod_cast hlow) hpos.le
    have hlt : (v : ℚ) < 2 ^ (j : ℤ) := by exact_mod_cast h
    exact (zpow_lt_zpow_iff_right₀ one_lt_two).mp (hle.trans_lt hlt)

theorem StandsFor.pack (hm : 0 < m) (hlow : 2 ^ 52 ≤ m) (hhigh : m < 2 ^ 53)
    (hvalue : (m : ℚ) * 2 ^ e = v) (hv : v ≠ 0) :
    StandsFor s v (Float.Model.pack (.finite s m e hm)).unpack := by
  have hbounds := exponent_bounds hlow hhigh hvalue
  by_cases hrange : v < 2 ^ 1024
  · have hmin := (hbounds 0).1 (by omega)
    have hmax := (hbounds 1024).2 hrange
    push_cast at hmin hmax
    rw [unpack_pack_finite hm hlow hhigh (by omega) (by omega)]
    exact .finite hlow hhigh hvalue hrange
  · have hlarge := (hbounds 1024).1 (not_lt.mp hrange)
    rw [pack_overflow hm (by omega), unpack_pack_infinity]
    exact .infinity (not_lt.mp hrange)

theorem StandsFor.neg {x : Float} (h : StandsFor s v x.toModel.unpack) :
    StandsFor (-s) v (-x).toModel.unpack := by
  have hneg : (-x).toModel.unpack = (Float.Model.pack x.toModel.unpack.neg).unpack := rfl
  rw [hneg]
  generalize x.toModel.unpack = u at *
  cases h with
  | zero hv =>
    show StandsFor (-s) v (Float.Model.pack (.zero (-s))).unpack
    rw [unpack_pack_zero]
    exact .zero hv
  | @finite m e hm hlow hhigh hvalue hv =>
    have hpos : (0 : ℚ) < m * 2 ^ e := mul_pos (Nat.cast_pos.mpr hm) (zpow_pos two_pos e)
    rw [hvalue] at hpos
    exact .pack hm hlow hhigh hvalue (Nat.cast_pos.mp hpos).ne'
  | infinity hv =>
    show StandsFor (-s) v (Float.Model.pack (.infinity (-s))).unpack
    rw [unpack_pack_infinity]
    exact .infinity hv

end

/-! ## The nearest double -/

theorem nearestWhole_mul_zpow {M n : ℕ} {E : ℤ} (hn : n ≠ 0) (hvalue : (M : ℚ) * 2 ^ E = n) :
    (nearestWhole M : ℚ) * 2 ^ E = nearestWhole n := by
  obtain ⟨k, rfl | rfl⟩ := E.eq_nat_or_neg
  · have hnat : n = M * 2 ^ k := by exact_mod_cast hvalue.symm
    have hM : M ≠ 0 := by
      rintro rfl
      exact hn (by simpa using hnat)
    rw [hnat, nearestWhole_mul_two_pow hM]
    push_cast
    rfl
  · rw [zpow_neg, zpow_natCast, ← div_eq_mul_inv, div_eq_iff (by positivity)] at hvalue ⊢
    have hnat : M = n * 2 ^ k := by exact_mod_cast hvalue
    rw [hnat, nearestWhole_mul_two_pow hn]
    push_cast
    rfl

/-- A whole number that is given with at least 53 bits is rounded to the nearest of 53. -/
theorem roundWithAccuracy_standsFor (s : Sign) {M n : ℕ} {E : ℤ} (hn : n ≠ 0)
    (hbits : 52 ≤ M.log2) (hvalue : (M : ℚ) * 2 ^ E = n) :
    StandsFor s (nearestWhole n)
      (Float.Model.pack (roundWithAccuracy .binary64 s M E .exact)).unpack := by
  have hM : M ≠ 0 := by
    rintro rfl
    simp at hbits
  have hpos : 0 < M.log2 + 1 + E :=
    (exponent_bounds (Nat.log2_self_le hM) Nat.lt_log2_self hvalue 0).1 (by omega)
  obtain ⟨m, e, hm, hround, hlow, hhigh, hnearest⟩ :=
    roundWithAccuracy_eq s hbits (show -1022 ≤ E + M.log2 by omega)
  rw [nearestWhole_mul_zpow hn hvalue] at hnearest
  rw [hround]
  exact .pack hm hlow hhigh hnearest (nearestWhole_ne_zero hn)

theorem round_standsFor (s : Sign) {n : ℕ} (hn : n ≠ 0) :
    StandsFor s (nearestWhole n) (Float.Model.pack (.round .binary64 s n 0)).unpack := by
  have htarget : Float.Model.Format.binary64.targetExponent (totalExponent n 0) =
      max ((n.log2 : ℤ) + 1 + 0 - 53) (-1074) := rfl
  have hamount : (0 - Float.Model.Format.binary64.targetExponent (totalExponent n 0)).toNat =
      52 - n.log2 := by
    rw [htarget]
    omega
  simp only [UnpackedFloat.round, UnpackedFloat.decreaseExponent, hamount, Nat.shiftLeft_eq]
  refine roundWithAccuracy_standsFor s hn ?_ ?_
  · rw [log2_mul_two_pow hn]
    omega
  · rw [zero_sub, zpow_neg, zpow_natCast, Nat.cast_mul, Nat.cast_pow, Nat.cast_ofNat,
      mul_inv_cancel_right₀ (by positivity)]

theorem toFloat_standsFor {n : ℕ} (hn : n ≠ 0) (h : n < 2 ^ 53) :
    StandsFor .positive n n.toUInt64.toFloat.toModel.unpack := by
  have hnat : n.toUInt64.toNat = n := UInt64.toNat_ofNat_of_lt (show n < 2 ^ 64 by omega)
  have hmodel : n.toUInt64.toFloat.toModel =
      .pack (.normalize .binary64 (n.toUInt64.toNat : ℤ) 0 .positive) := rfl
  have hcompare : compare (n : ℤ) 0 = .gt := Int.compare_eq_gt.mpr (by omega)
  have hround := round_standsFor .positive hn
  rw [nearestWhole_of_lt h] at hround
  simpa only [hmodel, hnat, UnpackedFloat.normalize, hcompare, Int.toNat_natCast] using hround

theorem mul_one_standsFor {u : UnpackedFloat} {n : ℕ} (h : StandsFor .positive n u)
    (hn : n ≠ 0) (hsmall : n < 2 ^ 53) :
    StandsFor .positive n (Float.Model.pack
      (u.mul .binary64 (.finite .positive (2 ^ 52) (-52) (by decide)))).unpack := by
  cases h with
  | zero hzero => exact (hn hzero).elim
  | @finite m e hm _ _ hvalue _ =>
    have hbits : 52 ≤ (m * 2 ^ 52).log2 := by
      rw [log2_mul_two_pow hm.ne']
      omega
    have hexact : ((m * 2 ^ 52 : ℕ) : ℚ) * 2 ^ (e + -52) = n := by
      rw [zpow_add₀ two_ne_zero, ← hvalue]
      push_cast
      ring
    have hround := roundWithAccuracy_standsFor .positive hn hbits hexact
    rwa [nearestWhole_of_lt hsmall] at hround
  | infinity hlarge => exact absurd hlarge (by omega)

theorem ofScientific_standsFor {n : ℕ} (hn : n ≠ 0) :
    StandsFor .positive (nearestWhole n) (Float.ofScientific n false 0).toModel.unpack := by
  unfold Float.ofScientific
  -- A short number is converted and multiplied by the power of ten, which is one. A longer one
  -- is written with 53 zeros behind it, so that there are always enough bits to round.
  by_cases h : n < 2 ^ 53 ∧ 0 ≤ 22
  · have hproduct : (n.toUInt64.toFloat * Float.exactlyRepresentablePowersOfTen[0]).toModel.unpack =
        (Float.Model.pack (.mul .binary64 n.toUInt64.toFloat.toModel.unpack
          (.finite .positive (2 ^ 52) (-52) (by decide)))).unpack := rfl
    rw [dif_pos h, nearestWhole_of_lt h.1]
    simp only [Bool.false_eq_true, if_false]
    rw [hproduct]
    exact mul_one_standsFor (toFloat_standsFor hn h.1) hn h.1
  · have hbits : 52 ≤ (n <<< 53 * 10 ^ 0).log2 := by
      rw [pow_zero, mul_one, Nat.shiftLeft_eq, log2_mul_two_pow hn]
      omega
    have hexact : ((n <<< 53 * 10 ^ 0 : ℕ) : ℚ) * 2 ^ (-53 + 0 : ℤ) = n := by
      rw [pow_zero, mul_one, Nat.shiftLeft_eq]
      push_cast
      ring
    have hround := roundWithAccuracy_standsFor .positive hn hbits hexact
    rw [dif_neg h]
    show StandsFor _ _ (Float.Model.pack (.ofScientific .binary64 n 0)).unpack
    rw [UnpackedFloat.ofScientific, dif_neg hn, if_neg (by decide),
      if_neg (show ¬ (0 : ℤ) < -(2 ^ 11 + n.log2) by omega), if_pos le_rfl]
    exact hround

theorem nearestFloat_standsFor (n : ℕ) :
    StandsFor .positive (nearestWhole n) (nearestFloat n 0).toModel.unpack := by
  unfold nearestFloat
  by_cases hn : n = 0
  · rw [if_pos hn, hn]
    exact .zero (nearestWhole_of_lt (by decide))
  simp only [if_neg hn]
  -- More than 400 digits are cut off as infinite, which is what rounding would give.
  by_cases hlong : 400 < 0 + ((Nat.toDigits 10 n).length : ℤ)
  · have hdigits : ¬ n < 10 ^ 400 := by
      rw [← Nat.length_toDigits_le_iff (by decide) (by decide)]
      omega
    have hpow {j k : ℕ} (hjk : j ≤ 3 * k) : 2 ^ j ≤ 10 ^ k := by
      calc 2 ^ j ≤ 2 ^ (3 * k) := Nat.pow_le_pow_right (by decide) hjk
        _ = (2 ^ 3) ^ k := pow_mul 2 3 k
        _ ≤ 10 ^ k := Nat.pow_le_pow_left (by decide) k
    have hlarge : 2 ^ 1024 ≤ n := (hpow (by decide)).trans (not_lt.mp hdigits)
    rw [if_pos hlong]
    exact .infinity (two_pow_le_nearestWhole hlarge)
  · rw [if_neg hlong, if_neg (by omega)]
    exact ofScientific_standsFor hn

/-! ## The parts of a double -/

def isNegative : Sign → Bool
  | .negative => true
  | .positive => false

def Binary64.ofUnpacked : UnpackedFloat → Binary64
  | .notANumber => .nan
  | .infinity s => .infinite (isNegative s)
  | .zero s => .finite (isNegative s) 0 (-1074)
  | .finite s m e _ => .finite (isNegative s) m e

section
variable (b : BitVec 64)

theorem toNat_unpackMantissa : (@unpackMantissa .binary64 b).toNat = b.toNat % 2 ^ 52 := by
  simp [unpackMantissa]

theorem toNat_unpackExponent : (@unpackExponent .binary64 b).toNat = b.toNat / 2 ^ 52 % 2 ^ 11 := by
  simp [unpackExponent, Nat.shiftRight_eq_div_pow]

theorem isNegative_unpackSign :
    isNegative (.ofBitVec (@unpackSign .binary64 b)) = decide (2 ^ 63 ≤ b.toNat) := by
  have hsign : (@unpackSign .binary64 b).toNat = b.toNat / 2 ^ 63 % 2 := by
    show (BitVec.extractLsb 63 63 b).toNat = _
    simp [Nat.shiftRight_eq_div_pow]
  have hlt : b.toNat < 2 ^ 64 := b.isLt
  have hzero : @unpackSign .binary64 b = 0#1 ↔ ¬ 2 ^ 63 ≤ b.toNat := by
    rw [← BitVec.toNat_inj, hsign, BitVec.toNat_zero]
    omega
  unfold Sign.ofBitVec
  by_cases h : 2 ^ 63 ≤ b.toNat
  · rw [if_neg (by rwa [hzero, not_not]), decide_eq_true h]
    rfl
  · rw [if_pos (hzero.mpr h), decide_eq_false h]
    rfl

theorem ofBits_eq : Binary64.ofBits b.toNat = .ofUnpacked (.unpack .binary64 b) := by
  have hbits : Binary64.ofBits b.toNat =
      if (@unpackExponent .binary64 b).toNat = 2047 then
        if (@unpackMantissa .binary64 b).toNat = 0 then
          .infinite (isNegative (.ofBitVec (@unpackSign .binary64 b)))
        else .nan
      else if (@unpackExponent .binary64 b).toNat = 0 then
        .finite (isNegative (.ofBitVec (@unpackSign .binary64 b)))
          (@unpackMantissa .binary64 b).toNat (-1074)
      else
        .finite (isNegative (.ofBitVec (@unpackSign .binary64 b)))
          (1#1 ++ @unpackMantissa .binary64 b).toNat
          ((@unpackExponent .binary64 b).toNat - 1075) := by
    rw [isNegative_unpackSign, toNat_one_append, toNat_unpackMantissa, toNat_unpackExponent]
    rfl
  rw [hbits]
  delta UnpackedFloat.unpack
  lift_lets
  intro mantissa exponent e signBit sign
  have hfull : exponent.toNat = 2047 ↔ exponent = -1#11 := by
    rw [← BitVec.toNat_inj]
    rfl
  have hzero : exponent.toNat = 0 ↔ exponent = 0#11 := by
    rw [← BitVec.toNat_inj]
    rfl
  have hempty : mantissa.toNat = 0 ↔ mantissa = 0#52 := by
    rw [← BitVec.toNat_inj]
    rfl
  by_cases hf : exponent = -1#11
  · rw [if_pos (hfull.mpr hf), if_pos hf]
    by_cases hm : mantissa = 0#52
    · rw [if_pos (hempty.mpr hm), if_pos hm]
      rfl
    · rw [if_neg (mt hempty.mp hm), if_neg hm]
      rfl
  · rw [if_neg (mt hfull.mp hf), if_neg hf]
    by_cases hz : exponent = 0#11
    · rw [if_pos (hzero.mpr hz), if_pos hz]
      by_cases hm : mantissa = 0#52
      · rw [dif_pos hm, hempty.mpr hm]
        rfl
      · rw [dif_neg hm]
        show Binary64.finite _ mantissa.toNat (-1074) = .finite _ mantissa.toNat (e + 1)
        have hleast : e + 1 = -1074 := by
          show (exponent.toNat : ℤ) - (1023 + 52) + 1 = -1074
          rw [hzero.mpr hz]
          rfl
        rw [hleast]
    · rw [if_neg (mt hzero.mp hz), if_neg hz]
      rfl

end

section
variable {s : Sign} {v : ℕ} {x : Float}

theorem StandsFor.toInt? (h : StandsFor s v x.toModel.unpack) (hv : v < 2 ^ 1024) :
    (Binary64.ofFloat x).toInt? = some (s.apply v) := by
  have hbits : Binary64.ofFloat x = .ofUnpacked x.toModel.unpack := ofBits_eq _
  rw [hbits, Binary64.toInt?_eq_some_iff]
  generalize x.toModel.unpack = u at *
  cases h with
  | zero hzero =>
    show (Binary64.finite (isNegative s) 0 (-1074)).rational? = _
    cases s <;> simp [Binary64.rational?, isNegative, Sign.apply, hzero]
  | @finite m e _ _ _ hvalue _ =>
    show (Binary64.finite (isNegative s) m e).rational? = _
    cases s <;> simp [Binary64.rational?, isNegative, Sign.apply, hvalue]
  | infinity hlarge => exact absurd hlarge (not_le.mpr hv)

theorem StandsFor.isFinite (h : StandsFor s v x.toModel.unpack) :
    x.isFinite = decide (v < 2 ^ 1024) := by
  show x.toModel.unpack.isFinite = _
  generalize x.toModel.unpack = u at *
  cases h with
  | zero hzero => 
    rw [hzero]
    exact (decide_eq_true (by positivity)).symm
  | finite _ _ _ hv => exact (decide_eq_true hv).symm
  | infinity hlarge => exact (decide_eq_false (not_lt.mpr hlarge)).symm

end

theorem Binary64.exists_bits {negative : Bool} {m : ℕ} {q w : ℤ} (hm : m < 2 ^ 53)
    (h : (finite negative m q).toInt? = some w) :
    ∃ a b : ℕ, a < 2 ^ 53 ∧ w.natAbs = a * 2 ^ b := by
  rw [toInt?_eq_some_iff, rational?, Option.some.injEq] at h
  have hpos : (0 : ℚ) ≤ (m : ℚ) * 2 ^ q := mul_nonneg (Nat.cast_nonneg m) (zpow_pos two_pos q).le
  have habs : (m : ℚ) * 2 ^ q = w.natAbs := by
    rw [Nat.cast_natAbs, Int.cast_abs, ← h]
    cases negative with
    | false => exact (abs_of_nonneg hpos).symm
    | true => exact ((abs_neg _).trans (abs_of_nonneg hpos)).symm
  rw [mul_two_zpow_eq] at habs
  split_ifs at habs with hq
  · exact ⟨m, q.toNat, hm, habs.symm⟩
  · have hle : w.natAbs ≤ m := habs.2 ▸ Nat.div_le_self m _
    exact ⟨w.natAbs, 0, by omega, by simp⟩

theorem exists_bits_of_toInt? {x : Float} {w : ℤ} (h : (Binary64.ofFloat x).toInt? = some w) :
    ∃ a b : ℕ, a < 2 ^ 53 ∧ w.natAbs = a * 2 ^ b := by
  have hfraction : x.toBits.toNat % Nat.pow 2 52 < 2 ^ 52 := Nat.mod_lt _ (by decide)
  simp only [Binary64.ofFloat, Binary64.ofBits] at h
  split_ifs at h
  · exact absurd h (by simp [Binary64.toInt?])
  · exact absurd h (by simp [Binary64.toInt?])
  · exact Binary64.exists_bits (by omega) h
  · exact Binary64.exists_bits (show 2 ^ 52 + _ < 2 ^ 53 by omega) h

/-! ## Integers -/

/-- The integer that the double nearest to `k` stands for. -/
def nearestDouble (k : ℤ) : ℤ :=
  if k < 0 then -(nearestWhole k.natAbs : ℤ) else nearestWhole k.natAbs

theorem natAbs_nearestDouble (k : ℤ) : (nearestDouble k).natAbs = nearestWhole k.natAbs := by
  unfold nearestDouble
  split_ifs
  · rw [Int.natAbs_neg, Int.natAbs_natCast]
  · exact Int.natAbs_natCast _

theorem nearestDouble_apply (s : Sign) (n : ℕ) :
    nearestDouble (s.apply n) = s.apply (nearestWhole n) := by
  cases s with
  | positive =>
    show (if (n : ℤ) < 0 then -(nearestWhole n : ℤ) else nearestWhole n) = nearestWhole n
    exact if_neg (by omega)
  | negative =>
    unfold nearestDouble
    by_cases hn : n = 0
    · simp [Sign.apply, hn, nearestWhole_of_lt]
    · simp [Sign.apply, Nat.pos_of_ne_zero hn]

theorem nearestDouble_nearest (k : ℤ) {x : Float} {w : ℤ}
    (h : (Binary64.ofFloat x).toInt? = some w) : |k - nearestDouble k| ≤ |k - w| := by
  obtain ⟨a, b, ha, hw⟩ := exists_bits_of_toInt? h
  unfold nearestDouble
  by_cases hk : k < 0
  · have hmirror := nearestWhole_nearest k.natAbs ha (Int.natAbs_neg w ▸ hw)
    rw [if_pos hk, ← abs_neg, ← abs_neg (k - w)]
    convert hmirror using 2 <;> omega
  · have hnearest := nearestWhole_nearest k.natAbs ha hw
    rw [if_neg hk]
    convert hnearest using 3 <;> omega

theorem nearestDouble_of_le {k : ℤ} (h : k.natAbs ≤ 2 ^ 53) : nearestDouble k = k := by
  have hexact : nearestWhole k.natAbs = k.natAbs := by
    rcases h.lt_or_eq with hlt | heq
    · exact nearestWhole_of_lt hlt
    · have hpower := nearestWhole_mul_two_pow one_ne_zero 53
      rwa [nearestWhole_of_lt (show 1 < 2 ^ 53 by decide), one_mul, ← heq] at hpower
  unfold nearestDouble
  rw [hexact]
  split_ifs <;> omega

end SymbolicCalculus.Decimal
