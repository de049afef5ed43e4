import SymbolicCalculus.Proofs.Meaning
import SymbolicCalculus.Proofs.NormalForm

/-!
# Simplification keeps the exact meaning

Every local rule keeps values, and where the node had a meaning its result has
one too. A tree with a meaning is therefore simplified without an error, to a tree
with that meaning; whatever simplification refuses has no meaning under any
interpretation.
-/

set_option autoImplicit false

namespace SymbolicCalculus

namespace Expr

variable {I : Interpretation}

/-! ## The local rules -/

theorem Negates.meaning_eq {x s : Expr} {q : ℚ} (h : Negates x s) (hx : meaning I x = some q) :
    meaning I s = some (-q) := by
  cases h with
  | neg y =>
    obtain ⟨z, hz, rfl⟩ := meaning_neg.mp hx
    rw [hz, neg_neg]
  | num h =>
    obtain rfl := eq_of_meaning_num hx
    rw [meaning_num, h, Int.cast_neg]
  | keep _ => exact meaning_neg.mpr ⟨q, hx, rfl⟩

theorem Multiplies.meaning_eq {l r s : Expr} {x y : ℚ} (h : Multiplies l r s)
    (hl : meaning I l = some x) (hr : meaning I r = some y) : meaning I s = some (x * y) := by
  induction h generalizing x y with
  | zero_left r =>
    obtain rfl := eq_of_meaning_num hl
    simp
  | zero_right l =>
    obtain rfl := eq_of_meaning_num hr
    simp
  | one_left r =>
    obtain rfl := eq_of_meaning_num hl
    simp [hr]
  | one_right l =>
    obtain rfl := eq_of_meaning_num hr
    simp [hl]
  | fold h =>
    obtain rfl := eq_of_meaning_num hl
    obtain rfl := eq_of_meaning_num hr
    rw [meaning_num, h, Int.cast_mul]
  | merge h _ ih =>
    obtain ⟨b, hb, t, ht, hy⟩ := meaning_binary.mp hr
    obtain rfl := eq_of_meaning_num hl
    obtain rfl := eq_of_meaning_num hb
    rw [← Option.some.inj hy, ih (meaning_num _) ht, h, Int.cast_mul, mul_assoc]
  | keep _ => exact meaning_binary.mpr ⟨x, hl, y, hr, rfl⟩

theorem meaning_term {e t : Expr} {k : Int64} {x : ℚ} (h : coefficient e = (k, t))
    (he : meaning I e = some x) : ∃ y, meaning I t = some y ∧ x = k.toInt * y := by
  unfold coefficient at h
  split at h
  · obtain ⟨rfl, rfl⟩ := Prod.mk.inj h
    obtain ⟨k', hk, y, hy, hx⟩ := meaning_binary.mp he
    obtain rfl := eq_of_meaning_num hk
    exact ⟨y, hy, (Option.some.inj hx).symm⟩
  · obtain ⟨rfl, rfl⟩ := Prod.mk.inj h
    exact ⟨x, he, by simp⟩

section
variable {op : Operator} {onInt : ℤ → ℤ → ℤ} {onRat : ℚ → ℚ → ℚ}

/-- Sums and differences, for an operation on integers that extends to the rationals and
over which products distribute. -/
theorem Combines.meaning_eq {l r s : Expr} {x y : ℚ} (h : Combines op onInt l r s)
    (hop : ∀ x y, op.result? x y = some (onRat x y))
    (hcast : ∀ a b : ℤ, ((onInt a b : ℤ) : ℚ) = onRat a b)
    (hmul : ∀ a b y : ℚ, onRat a b * y = onRat (a * y) (b * y))
    (hl : meaning I l = some x) (hr : meaning I r = some y) :
    meaning I s = some (onRat x y) := by
  cases h with
  | fold h =>
    obtain rfl := eq_of_meaning_num hl
    obtain rfl := eq_of_meaning_num hr
    rw [meaning_num, h, hcast]
  | like_terms htl htr hc hs =>
    obtain ⟨z, hz, rfl⟩ := meaning_term htl hl
    obtain ⟨z', hz', rfl⟩ := meaning_term htr hr
    obtain rfl : z = z' := Option.some.inj (hz.symm.trans hz')
    rw [hs.meaning_eq (meaning_num _) hz, hc, hcast, hmul]
  | keep _ => exact meaning_binary.mpr ⟨x, hl, y, hr, hop x y⟩

end

theorem Adds.meaning_eq {l r s : Expr} {x y : ℚ} (h : Adds l r s)
    (hl : meaning I l = some x) (hr : meaning I r = some y) : meaning I s = some (x + y) := by
  cases h with
  | zero_right _ =>
    obtain rfl := eq_of_meaning_num hr
    simp [hl]
  | zero_left _ =>
    obtain rfl := eq_of_meaning_num hl
    simp [hr]
  | combine h => exact h.meaning_eq (fun _ _ => rfl) (fun _ _ => Int.cast_add _ _) add_mul hl hr

theorem Subtracts.meaning_eq {l r s : Expr} {x y : ℚ} (h : Subtracts l r s)
    (hl : meaning I l = some x) (hr : meaning I r = some y) : meaning I s = some (x - y) := by
  cases h with
  | zero_left h =>
    obtain rfl := eq_of_meaning_num hl
    simp [h.meaning_eq hr]
  | zero_right _ =>
    obtain rfl := eq_of_meaning_num hr
    simp [hl]
  | combine h => exact h.meaning_eq (fun _ _ => rfl) (fun _ _ => Int.cast_sub _ _) sub_mul hl hr

theorem Divides.meaning_eq {l r : Expr} {out : Except Fault Expr} {x y q : ℚ}
    (h : Divides l r out) (hl : meaning I l = some x) (hr : meaning I r = some y)
    (hq : Operator.div.result? x y = some q) : ∃ s, out = .ok s ∧ meaning I s = some q := by
  obtain ⟨hy, rfl⟩ := Operator.result?_div.mp hq
  cases h with
  | zero_divisor _ =>
    obtain rfl := eq_of_meaning_num hr
    simp at hy
  | zero_left _ =>
    obtain rfl := eq_of_meaning_num hl
    exact ⟨_, rfl, by simp⟩
  | one_right _ =>
    obtain rfl := eq_of_meaning_num hr
    exact ⟨_, rfl, by simp [hl]⟩
  | fold _ h =>
    obtain rfl := eq_of_meaning_num hl
    obtain rfl := eq_of_meaning_num hr
    refine ⟨_, rfl, ?_⟩
    rw [meaning_num, Option.some.injEq, eq_div_iff hy, ← h, Int.cast_mul]
  | keep _ => exact ⟨_, rfl, meaning_binary.mpr ⟨x, hl, y, hr, hq⟩⟩

theorem Raises.meaning_eq {form : PowerForm} {b e : Expr} {out : Except Fault Expr} {x n q : ℚ}
    (h : Raises form b e out) (hb : meaning I b = some x) (he : meaning I e = some n)
    (hq : power? x n = some q) : ∃ s, out = .ok s ∧ meaning I s = some q := by
  induction h generalizing x n with
  | zero_to_zero =>
    obtain rfl := eq_of_meaning_num hb
    obtain rfl := eq_of_meaning_num he
    simp [power?] at hq
  | zero_to_negative hn =>
    obtain rfl := eq_of_meaning_num hb
    obtain rfl := eq_of_meaning_num he
    exact ((power?_intCast.mp hq).1 ⟨rfl, hn.le⟩).elim
  | zero_base _ _ =>
    obtain rfl := eq_of_meaning_num hb
    obtain ⟨k, _, hpos, rfl⟩ := power?_eq_some.mp hq
    have hk : k ≠ 0 := by
      rintro rfl
      exact hpos ⟨rfl, le_refl 0⟩
    exact ⟨_, rfl, by simp [zero_zpow k hk]⟩
  | one_base _ =>
    obtain rfl := eq_of_meaning_num hb
    obtain ⟨k, _, _, rfl⟩ := power?_eq_some.mp hq
    exact ⟨_, rfl, by simp⟩
  | zero_exponent _ =>
    obtain rfl := eq_of_meaning_num he
    obtain ⟨_, rfl⟩ := power?_intCast.mp hq
    exact ⟨_, rfl, by simp⟩
  | one_exponent _ =>
    obtain rfl := eq_of_meaning_num he
    obtain ⟨_, rfl⟩ := power?_intCast.mp hq
    exact ⟨_, rfl, by simp [hb]⟩
  | fold hn h =>
    obtain rfl := eq_of_meaning_num hb
    obtain rfl := eq_of_meaning_num he
    obtain ⟨_, rfl⟩ := power?_intCast.mp hq
    refine ⟨_, rfl, ?_⟩
    rw [meaning_num, h, Int.cast_pow, ← zpow_natCast, Int.toNat_of_nonneg hn]
  | flatten inner hm _ ih =>
    obtain ⟨u, hu, a, ha, hx⟩ := (meaning_build inner).mp hb
    exact ih hu (hm.meaning_eq ha he) (power?_power hx hq)
  | keep _ => exact ⟨_, rfl, (meaning_build form).mpr ⟨x, hb, n, he, hq⟩⟩

theorem applyRule_meaning {op : Operator} {l r : Expr} {x y q : ℚ} (hl : meaning I l = some x)
    (hr : meaning I r = some y) (hq : op.result? x y = some q) :
    ∃ s, applyRule op l r = .ok s ∧ meaning I s = some q := by
  cases op with
  | add => exact ⟨_, rfl, ((adds_sum l r).meaning_eq hl hr).trans hq⟩
  | sub => exact ⟨_, rfl, ((subtracts_difference l r).meaning_eq hl hr).trans hq⟩
  | mul => exact ⟨_, rfl, ((multiplies_product l r).meaning_eq hl hr).trans hq⟩
  | div => exact (divides_quotient l r).meaning_eq hl hr hq
  | pow => exact (raises_power .node l r).meaning_eq hl hr hq

/-! ## The engine -/

theorem reduceAll_meaning {args : List Expr} {xs : List ℚ}
    (hargs : List.Forall₂ (fun a x => meaning I a = some x) args xs)
    (ih : ∀ a ∈ args, ∀ x, meaning I a = some x → ∃ a', reduce a = .ok a' ∧ meaning I a' = some x) :
    ∃ reduced, List.Forall₂ (fun a a' => reduce a = .ok a') args reduced ∧
      List.Forall₂ (fun a x => meaning I a = some x) reduced xs := by
  induction hargs with
  | nil => exact ⟨[], .nil, .nil⟩
  | cons ha _ ihs =>
    obtain ⟨a', hr, hm⟩ := ih _ (by simp) _ ha
    obtain ⟨as', hrs, hms⟩ := ihs fun b hb => ih b (by simp [hb])
    exact ⟨a' :: as', .cons hr hrs, .cons hm hms⟩

theorem reduce_meaning {e : Expr} {q : ℚ} (h : meaning I e = some q) :
    ∃ s, reduce e = .ok s ∧ meaning I s = some q := by
  induction e generalizing q with
  | missing => simp [meaning] at h
  | num v => exact ⟨_, rfl, h⟩
  | sym name => exact ⟨_, rfl, h⟩
  | binary op l r ihl ihr =>
    obtain ⟨x, hl, y, hr, hq⟩ := meaning_binary.mp h
    obtain ⟨l', hl', hx⟩ := ihl hl
    obtain ⟨r', hr', hy⟩ := ihr hr
    obtain ⟨s, hs, hm⟩ := applyRule_meaning hx hy hq
    exact ⟨s, reduce_binary.mpr ⟨l', hl', r', hr', hs⟩, hm⟩
  | neg x ih =>
    obtain ⟨y, hy, rfl⟩ := meaning_neg.mp h
    obtain ⟨x', hx', hm⟩ := ih hy
    exact ⟨_, reduce_neg.mpr ⟨x', hx', rfl⟩, (negates_negation x').meaning_eq hm⟩
  | call name args ih =>
    by_cases hname : name = "pow"
    · subst hname
      obtain ⟨b, e, rfl⟩ := meaning_power_call h
      obtain ⟨x, hb, n, he, hq⟩ := (meaning_build .call).mp h
      obtain ⟨b', hb', hx⟩ := ih b (by simp) hb
      obtain ⟨e', he', hn⟩ := ih e (by simp) he
      obtain ⟨s, hs, hm⟩ := (raises_power .call b' e').meaning_eq hx hn hq
      refine ⟨s, reduce_call.mpr ⟨[b', e'], ?_, Or.inr ⟨rfl, b', e', rfl, hs⟩⟩, hm⟩
      simp [hb', he']
    · obtain ⟨xs, hargs, hq⟩ := (meaning_call hname).mp h
      obtain ⟨reduced, hreduced, hm⟩ := reduceAll_meaning hargs fun a ha x => ih a ha
      exact ⟨_, reduce_call.mpr ⟨reduced, hreduced, Or.inl ⟨hname, rfl⟩⟩,
        (meaning_call hname).mpr ⟨xs, hm, hq⟩⟩
  | stmt x ih =>
    obtain ⟨x', hx', hm⟩ := ih (by simpa using h)
    exact ⟨_, reduce_stmt.mpr ⟨x', hx', rfl⟩, by simpa using hm⟩

end Expr

/-- A tree with an exact value is simplified without an error, to a tree with the same
value. So an error of any kind is reported only for a tree that has no value under any
interpretation. -/
theorem simplify_sound (e : Expr) :
    (∀ (I : Interpretation) (q : ℚ), e.meaning I = some q →
      ∃ s, simplify e = .ok s ∧ s.meaning I = some q) ∧
    (∀ err : Error, simplify e = .error err → ∀ I : Interpretation, e.meaning I = none) := by
  have hsound : ∀ (I : Interpretation) (q : ℚ), e.meaning I = some q →
      ∃ s, simplify e = .ok s ∧ s.meaning I = some q := by
    intro I q h
    obtain ⟨s, hs, hm⟩ := Expr.reduce_meaning h
    exact ⟨s, simplify_eq_ok.mpr hs, hm⟩
  constructor
  · exact hsound
  · intro err herr I
    cases h : e.meaning I with
    | none => rfl
    | some q =>
      obtain ⟨s, hs, _⟩ := hsound I q h
      rw [hs] at herr
      cases herr

/-- `(x^2)^3/x + 0*f(x)` where `x` is one half and every function returns its argument:
flattening, a division that does not fold and a call that vanishes. -/
theorem simplify_sound_half :
    ∃ s, simplify (.add (.div (.pow (.pow (.sym "x") (.num 2)) (.num 3)) (.sym "x"))
        (.mul (.num 0) (.call "f" [.sym "x"]))) = .ok s ∧
      s.meaning ⟨fun _ => some (1 / 2), fun _ xs => xs.head?⟩ = some (1 / 32) := by
  refine (simplify_sound _).1 ⟨fun _ => some (1 / 2), fun _ xs => xs.head?⟩ (1 / 32) ?_
  decide +kernel

end SymbolicCalculus
