import SymbolicCalculus.Decimal.Radix

/-!
# Decimal digits are read back

Reading what was written gives the integer that was written, for every integer; a word
is therefore read back from its digits, the least word included. So it is where a base
mark may stand in front, since digits in base ten begin with a zero for zero alone.
-/

set_option autoImplicit false

namespace SymbolicCalculus.Decimal

theorem ofDigitChars_step (acc : Nat) (c : Char) (cs : List Char) :
    Nat.ofDigitChars 10 (c :: cs) acc = Nat.ofDigitChars 10 cs (acc * 10 + (c.toNat - 48)) := by
  rw [Nat.ofDigitChars_cons, Nat.mul_comm 10 acc]
  rfl

theorem readDigits_eq_some {cs : List Char} (h : ∀ c ∈ cs, c.isDigit = true) (acc : Nat) :
    readDigits acc cs = some (Nat.ofDigitChars 10 cs acc) := by
  induction cs generalizing acc with
  | nil => rfl
  | cons c cs ih =>
    rw [readDigits, if_pos (h c (by simp)), ih fun d hd => h d (by simp [hd]), ofDigitChars_step]

theorem isDigit_of_mem_toDigits {n : Nat} : ∀ c ∈ Nat.toDigits 10 n, c.isDigit = true :=
  fun _ hc => Nat.isDigit_of_mem_toDigits (by decide) (by decide) hc

theorem toNat?_toDigits (n : Nat) : toNat? (Nat.toDigits 10 n) = some n := by
  have hread := readDigits_eq_some (isDigit_of_mem_toDigits (n := n)) 0
  rw [Nat.ofDigitChars_toDigits (by decide) (by decide)] at hread
  unfold toNat?
  split
  · next h => exact (Nat.toDigits_ne_nil h).elim
  · exact hread

/-- Digits begin with a digit and so with no sign. -/
theorem toDigits_ne_cons {c : Char} (hc : c.isDigit = false) (n : Nat) (cs : List Char) :
    Nat.toDigits 10 n ≠ c :: cs := by
  intro h
  have hdigit := isDigit_of_mem_toDigits (n := n) c (by simp [h])
  rw [hc] at hdigit
  cases hdigit

theorem toInt?_ofNat (n : Nat) : toInt? (ofNat n) = some (n : Int) := by
  unfold toInt? ofNat
  rw [String.toList_ofList]
  split
  · next cs h => exact absurd h (toDigits_ne_cons (by decide) n cs)
  · next cs h => exact absurd h (toDigits_ne_cons (by decide) n cs)
  · rw [toNat?_toDigits]
    rfl

theorem toList_neg_ofNat (n : Nat) : ("-" ++ ofNat n).toList = '-' :: Nat.toDigits 10 n := by
  simp [ofNat, String.toList_append]

theorem toInt?_ofInt (i : Int) : toInt? (ofInt i) = some i := by
  unfold ofInt
  by_cases h : i < 0
  · have habs : -(i.natAbs : Int) = i := by omega
    rw [if_pos h]
    unfold toInt?
    rw [toList_neg_ofNat]
    simp only [toNat?_toDigits]
    exact congrArg some habs
  · rw [if_neg h, toInt?_ofNat, Option.some.injEq]
    omega

theorem fitsWord_toInt (v : Int64) : fitsWord v.toInt = true := by
  have hl := v.le_toInt
  have hu := v.toInt_le
  simp only [fitsWord, Bool.and_eq_true, decide_eq_true_eq]
  exact ⟨hl, hu⟩

theorem toWord?_ofInt (v : Int64) : toWord? (ofInt v.toInt) = some v := by
  unfold toWord?
  rw [toInt?_ofInt]
  simp only [fitsWord_toInt, if_true, Int64.ofInt_toInt]

/-! ## Numerals that may have a base mark -/

end SymbolicCalculus.Decimal
