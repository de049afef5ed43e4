import Mathlib.Algebra.Order.Field.Rat
import Mathlib.Tactic.Positivity
import SymbolicCalculus.Decimal.Binary64
import SymbolicCalculus.Proofs.Checked
import SymbolicCalculus.Proofs.DecimalText

/-!
# Integers in texts and in doubles

The texts that are read as integers, and the doubles that stand for one: those whose
exact value, a rational number, is an integer. An integer is a word's exactly if it fits,
and a double has an exact value exactly if it is finite.
-/

set_option autoImplicit false

namespace SymbolicCalculus.Decimal
open Checked (Fits)

/-! ## Texts -/

/-- At least one decimal digit with an optional sign before it, and the integer this is. -/
inductive IsNumeral : List Char → ℤ → Prop
  | plain {ds : List Char} (hne : ds ≠ []) (hds : ∀ c ∈ ds, c.isDigit = true) :
      IsNumeral ds (Nat.ofDigitChars 10 ds 0)
  | plus {ds : List Char} (hne : ds ≠ []) (hds : ∀ c ∈ ds, c.isDigit = true) :
      IsNumeral ('+' :: ds) (Nat.ofDigitChars 10 ds 0)
  | minus {ds : List Char} (hne : ds ≠ []) (hds : ∀ c ∈ ds, c.isDigit = true) :
      IsNumeral ('-' :: ds) (-(Nat.ofDigitChars 10 ds 0 : ℤ))

theorem isDigit_of_readDigits {acc n : ℕ} {cs : List Char} (h : readDigits acc cs = some n) :
    ∀ c ∈ cs, c.isDigit = true := by
  induction cs generalizing acc with
  | nil => simp
  | cons c cs ih =>
    rw [readDigits] at h
    split_ifs at h with hc
    intro d hd
    rcases List.mem_cons.mp hd with rfl | hd
    · exact hc
    · exact ih h d hd

theorem toNat?_eq_some_iff {cs : List Char} {n : ℕ} :
    toNat? cs = some n ↔
      cs ≠ [] ∧ (∀ c ∈ cs, c.isDigit = true) ∧ Nat.ofDigitChars 10 cs 0 = n := by
  cases cs with
  | nil => simp [toNat?]
  | cons c cs =>
    rw [toNat?]
    · constructor
      · intro h
        have hds := isDigit_of_readDigits h
        rw [readDigits_eq_some hds, Option.some.injEq] at h
        exact ⟨by simp, hds, h⟩
      · rintro ⟨_, hds, hn⟩
        rw [readDigits_eq_some hds, hn]
    · simp

theorem toInt?_eq_some_iff {s : String} {i : ℤ} : toInt? s = some i ↔ IsNumeral s.toList i := by
  unfold toInt?
  generalize s.toList = cs
  split
  · next ds =>
    simp only [Option.bind_eq_bind, Option.pure_def, Option.map_eq_some_iff,
      Option.bind_eq_some_iff, toNat?_eq_some_iff, Option.some.injEq]
    constructor
    · rintro ⟨_, ⟨_, ⟨hne, hds, rfl⟩, rfl⟩, rfl⟩
      exact .minus hne hds
    · rintro (⟨_, hds⟩ | _ | ⟨hne, hds⟩)
      · exact absurd (hds '-' (by simp)) (by decide)
      · exact ⟨_, ⟨_, ⟨hne, hds, rfl⟩, rfl⟩, rfl⟩
  · next ds =>
    simp only [Option.map_eq_some_iff, toNat?_eq_some_iff]
    constructor
    · rintro ⟨_, ⟨hne, hds, rfl⟩, rfl⟩
      exact .plus hne hds
    · rintro (⟨_, hds⟩ | ⟨hne, hds⟩ | _)
      · exact absurd (hds '+' (by simp)) (by decide)
      · exact ⟨_, ⟨hne, hds, rfl⟩, rfl⟩
  · next hminus hplus =>
    simp only [Option.map_eq_some_iff, toNat?_eq_some_iff]
    constructor
    · rintro ⟨_, ⟨hne, hds, rfl⟩, rfl⟩
      exact .plain hne hds
    · rintro (⟨hne, hds⟩ | _ | _)
      · exact ⟨_, ⟨hne, hds, rfl⟩, rfl⟩
      · exact (hplus _ rfl).elim
      · exact (hminus _ rfl).elim

theorem fitsWord_iff {i : ℤ} : fitsWord i = true ↔ Fits i := by
  have hleast : Int64.minValue.toInt = -2 ^ 63 := by decide
  have hgreatest : Int64.maxValue.toInt = 2 ^ 63 - 1 := by decide
  rw [fitsWord, hleast, hgreatest, Bool.and_eq_true, decide_eq_true_eq, decide_eq_true_eq, Fits]
  omega

theorem toWord?_isSome_iff {s : String} :
    (toWord? s).isSome ↔ ∃ i, IsNumeral s.toList i ∧ Fits i := by
  simp only [← toInt?_eq_some_iff, ← fitsWord_iff]
  unfold toWord?
  cases toInt? s with
  | none => simp
  | some i =>
    by_cases h : fitsWord i
    · simp [h]
    · simp [h]

/-! ## Doubles -/

def Binary64.rational? : Binary64 → Option ℚ
  | .finite negative m q => some (if negative then -((m : ℚ) * 2 ^ q) else (m : ℚ) * 2 ^ q)
  | _ => none

theorem mul_two_zpow_eq {m n : ℕ} {q : ℤ} :
    (m : ℚ) * 2 ^ q = n ↔
      if 0 ≤ q then m * 2 ^ q.toNat = n
      else m % 2 ^ (-q).toNat = 0 ∧ m / 2 ^ (-q).toNat = n := by
  split_ifs with hq
  · obtain ⟨k, rfl⟩ := Int.eq_ofNat_of_zero_le hq
    rw [zpow_natCast, Int.toNat_natCast]
    exact_mod_cast Iff.rfl
  · obtain ⟨k, hk⟩ := Int.eq_ofNat_of_zero_le (show 0 ≤ -q by omega)
    have hpow : (0 : ℚ) < 2 ^ k := by positivity
    rw [hk, Int.toNat_natCast, show q = -(k : ℤ) by omega, zpow_neg, zpow_natCast,
      ← div_eq_mul_inv, div_eq_iff hpow.ne']
    constructor
    · intro h
      have hm : m = n * 2 ^ k := by exact_mod_cast h
      rw [hm]
      simp
    · rintro ⟨hmod, hdiv⟩
      have hm : m = n * 2 ^ k := by
        rw [← hdiv, Nat.div_mul_cancel (Nat.dvd_of_mod_eq_zero hmod)]
      exact_mod_cast hm

/-- A double stands for an integer exactly if its exact value is that integer. -/
theorem Binary64.toInt?_eq_some_iff {b : Binary64} {i : ℤ} :
    b.toInt? = some i ↔ b.rational? = some (i : ℚ) := by
  cases b with
  | nan => simp [toInt?, rational?]
  | infinite _ => simp [toInt?, rational?]
  | finite negative m q =>
    have hmagnitude (n : ℕ) :
        (if 0 ≤ q then some (m * Nat.pow 2 q.toNat)
          else if m % Nat.pow 2 (-q).toNat = 0 then some (m / Nat.pow 2 (-q).toNat)
          else none) = some n ↔ (m : ℚ) * 2 ^ q = n := by
      rw [mul_two_zpow_eq]
      split_ifs with hq hm
      · simp
      · simpa using fun _ => hm
      · simpa using fun h => absurd h hm
    have hsign : (finite negative m q).toInt? = some i ↔
        ∃ n : ℕ, (m : ℚ) * 2 ^ q = n ∧ (if negative then -(n : ℤ) else n) = i := by
      simp only [toInt?, Option.bind_eq_bind, Option.pure_def, Option.map_eq_some_iff,
        Option.bind_eq_some_iff, hmagnitude, Option.some.injEq]
      simp only [← exists_and_right, and_assoc, exists_comm (α := ℤ), exists_and_left,
        exists_eq_left']
    rw [hsign, rational?, Option.some.injEq]
    constructor
    · rintro ⟨n, hn, rfl⟩
      cases negative <;> simp [hn]
    · intro hi
      have hexact : (m : ℚ) * 2 ^ q = ((if negative then -i else i : ℤ) : ℚ) := by
        cases negative with
        | false => simpa using hi
        | true => simpa [neg_eq_iff_eq_neg] using hi
      have hnonneg : 0 ≤ (if negative then -i else i : ℤ) := by
        have hpos : (0 : ℚ) ≤ (m : ℚ) * 2 ^ q :=
          mul_nonneg (Nat.cast_nonneg m) (zpow_nonneg (by norm_num) q)
        rw [hexact] at hpos
        exact_mod_cast hpos
      refine ⟨(if negative then -i else i : ℤ).toNat, ?_, ?_⟩
      · rw [hexact]
        exact_mod_cast (Int.toNat_of_nonneg hnonneg).symm
      · rw [Int.toNat_of_nonneg hnonneg]
        cases negative <;> simp

/-! ## Finite doubles -/

open Float.Model (UnpackedFloat)

theorem exponent_full_iff {x : Float} :
    @UnpackedFloat.unpackExponent .binary64 x.toModel.toBits.toBitVec = -1#11 ↔
      x.toBits.toNat / Nat.pow 2 52 % Nat.pow 2 11 = 2047 := by
  have hbits : x.toBits.toNat = x.toModel.toBits.toBitVec.toNat := rfl
  rw [← BitVec.toNat_inj, hbits]
  simp [UnpackedFloat.unpackExponent, Nat.shiftRight_eq_div_pow]

theorem isFinite_iff_exponent {x : Float} :
    x.isFinite = true ↔ ¬ x.toBits.toNat / Nat.pow 2 52 % Nat.pow 2 11 = 2047 := by
  have hmodel : x.isFinite =
      (UnpackedFloat.unpack .binary64 x.toModel.toBits.toBitVec).isFinite := rfl
  rw [hmodel, ← exponent_full_iff]
  delta UnpackedFloat.unpack
  lift_lets
  intro mantissa exponent e s sign
  by_cases hfull : exponent = -1#11
  · rw [if_pos hfull]
    refine iff_of_false ?_ (not_not_intro hfull)
    split <;> exact Bool.false_ne_true
  · rw [if_neg hfull]
    refine iff_of_true ?_ hfull
    by_cases hzero : exponent = 0#11
    · rw [if_pos hzero]
      by_cases hm : mantissa = 0#52
      · rw [dif_pos hm]
        rfl
      · rw [dif_neg hm]
        rfl
    · rw [if_neg hzero]
      rfl

theorem isFinite_iff_rational {x : Float} :
    x.isFinite = true ↔ ∃ q, (Binary64.ofFloat x).rational? = some q := by
  rw [isFinite_iff_exponent, Binary64.ofFloat, Binary64.ofBits]
  split_ifs with hfull
  · simp [hfull, Binary64.rational?]
  · simp [hfull, Binary64.rational?]
  · simp [hfull, Binary64.rational?]
  · simp [hfull, Binary64.rational?]

end SymbolicCalculus.Decimal
