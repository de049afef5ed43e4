import SymbolicCalculus.Proofs.Independence

/-!
# The two forms of the power rule

The derivative of a power is a plain form, to which a logarithmic part is added if the
variable occurs in the exponent. Where it does not occur the part could as well be added:
its last factor, the derivative of the exponent, simplifies to zero, and a sum with zero is
its other operand. Leaving it out spares only the errors that it could bring in: the exponent
`0^1` simplifies to zero, but its derivative meets `0^0`.
-/

set_option autoImplicit false

namespace SymbolicCalculus

namespace Expr

def plainPower (form : PowerForm) (b e db : Expr) : Expr :=
  .mul (.mul e (form.build b (.sub e (.num 1)))) db

def logarithmicPart (form : PowerForm) (b e de : Expr) : Expr :=
  .mul (.mul (form.build b e) (.call "log" [b])) de

def logarithmicPower (form : PowerForm) (b e db de : Expr) : Expr :=
  .add (plainPower form b e db) (logarithmicPart form b e de)

theorem powerRule_eq (form : PowerForm) (v : String) (b e db de : Expr) :
    powerRule form v b e db de =
      if e.dependsOn v then logarithmicPower form b e db de else plainPower form b e db :=
  rfl

/-! ## Where simplification succeeds -/

def Simplifies (e : Expr) : Prop :=
  ∃ s, reduce e = .ok s

theorem simplifies_mul {l r : Expr} : Simplifies (.mul l r) ↔ Simplifies l ∧ Simplifies r := by
  constructor
  · rintro ⟨s, hs⟩
    obtain ⟨l', hl, r', hr, _⟩ := reduce_binary.mp hs
    exact ⟨⟨l', hl⟩, ⟨r', hr⟩⟩
  · rintro ⟨⟨l', hl⟩, ⟨r', hr⟩⟩
    exact ⟨_, reduce_binary.mpr ⟨l', hl, r', hr, rfl⟩⟩

theorem Simplifies.apply (f : Unary) {u : Expr} (hu : Simplifies u) :
    Simplifies (.call f.name [u]) := by
  obtain ⟨u', hu'⟩ := hu
  refine ⟨.call f.name [u'], ?_⟩
  rw [reduce_unary, hu']
  rfl

theorem Simplifies.base {form : PowerForm} {b e : Expr} (h : Simplifies (form.build b e)) :
    Simplifies b := by
  obtain ⟨s, hs⟩ := h
  rw [reduce_build] at hs
  obtain ⟨b', hb, _⟩ := bind_eq_ok.mp hs
  exact ⟨b', hb⟩

theorem simplifies_logarithmicPart {form : PowerForm} {b e de : Expr} :
    Simplifies (logarithmicPart form b e de) ↔ Simplifies (form.build b e) ∧ Simplifies de := by
  unfold logarithmicPart
  rw [simplifies_mul, simplifies_mul, and_assoc]
  refine and_congr_right fun hpower => ?_
  exact and_iff_right (hpower.base.apply .log)

/-! ## A vanishing part -/

theorem sum_zero_right (l : Expr) : sum l (.num 0) = l := by
  rw [sum, if_pos (isZero_iff.mpr rfl)]

theorem Vanishes.simplifies_iff {e : Expr} (h : Vanishes e) :
    Simplifies e ↔ reduce e = .ok (.num 0) := by
  constructor
  · rintro ⟨s, hs⟩
    rw [hs, h s hs]
  · intro hzero
    exact ⟨_, hzero⟩

/-- What vanishes can be left out of a sum in which it has a simplified form. -/
theorem Vanishes.reduce_add {l r s : Expr} (hr : Vanishes r) :
    reduce (.add l r) = .ok s ↔ reduce l = .ok s ∧ Simplifies r := by
  rw [hr.simplifies_iff]
  constructor
  · intro hs
    obtain ⟨l', hl', r', hr', happly⟩ := reduce_binary.mp hs
    obtain rfl := hr r' hr'
    rw [applyRule, sum_zero_right] at happly
    cases happly
    exact ⟨hl', hr'⟩
  · rintro ⟨hl, hzero⟩
    refine reduce_binary.mpr ⟨s, hl, .num 0, hzero, ?_⟩
    rw [applyRule, sum_zero_right]

theorem reduce_logarithmicPower (form : PowerForm) {b e db de t : Expr} (hde : Vanishes de) :
    reduce (logarithmicPower form b e db de) = .ok t ↔
      reduce (plainPower form b e db) = .ok t ∧ Simplifies (form.build b e) ∧
        reduce de = .ok (.num 0) := by
  have hpart : Vanishes (logarithmicPart form b e de) := .mul_right _ hde
  rw [logarithmicPower, hpart.reduce_add, simplifies_logarithmicPart, hde.simplifies_iff]

end Expr

open SymbolicCalculus.Expr (plainPower logarithmicPower)

/-- The derivative of a valid power in a variable that does not occur in its exponent is the
plain form. Where the logarithmic form can be simplified too, it simplifies to the same tree;
it can exactly if the power itself can and the derivative of the exponent simplifies to
zero. -/
theorem differentiate_power_plain (form : PowerForm) (v : String) (b e : Expr)
    (hb : validate b = .ok ()) (he : validate e = .ok ()) (hstmt : e.StmtFree)
    (hv : e.Independent v) :
    ∃ db de, differentiate v b = .ok db ∧ differentiate v e = .ok de ∧
      differentiate v (form.build b e) = .ok (plainPower form b e db) ∧
      (∀ s t, simplify (plainPower form b e db) = .ok s →
        simplify (logarithmicPower form b e db de) = .ok t → s = t) ∧
      ∀ t, simplify (logarithmicPower form b e db de) = .ok t ↔
        simplify (plainPower form b e db) = .ok t ∧ (∃ p, simplify (form.build b e) = .ok p) ∧
          simplify de = .ok (.num 0) := by
  rw [validate_eq_ok_iff] at hb he
  obtain ⟨db, hdb⟩ := hb.derive_defined v
  obtain ⟨de, hde⟩ := he.derive_defined v
  have hvanishes : de.Vanishes := Expr.derive_vanishes ⟨hstmt, hv⟩ hde
  have hplain : Expr.powerRule form v b e db de = plainPower form b e db := by
    rw [Expr.powerRule_eq, Expr.dependsOn_eq_false hv]
    rfl
  simp only [differentiate_eq_ok, simplify_eq_ok]
  refine ⟨db, de, hdb, hde, ?_, ?_, fun t => Expr.reduce_logarithmicPower form hvanishes⟩
  · exact (Expr.derive_build form).mpr ⟨db, hdb, de, hde, hplain⟩
  · intro s t hs ht
    obtain ⟨ht', _⟩ := (Expr.reduce_logarithmicPower form hvanishes).mp ht
    exact Except.ok.inj (hs.symm.trans ht')

/-- `pow(sin(x), y/z)` by `x`: the derivative of the exponent is a quotient whose numerator
simplifies to zero. -/
theorem differentiate_power_plain_quotient :
    let b : Expr := .call "sin" [.sym "x"]
    let e : Expr := .div (.sym "y") (.sym "z")
    validate b = .ok () ∧ validate e = .ok () ∧ e.StmtFree ∧ e.Independent "x" ∧
      ∃ db de s, differentiate "x" b = .ok db ∧ differentiate "x" e = .ok de ∧
        simplify (plainPower .call b e db) = .ok s ∧
        simplify (logarithmicPower .call b e db de) = .ok s := by
  intro b e
  have hstmt : e.StmtFree := by decide
  have hv : e.Independent "x" := by decide
  obtain ⟨db, de, hdb, hde, _, _, hiff⟩ :=
    differentiate_power_plain .call "x" b e rfl rfl hstmt hv
  cases hdb
  cases hde
  exact ⟨rfl, rfl, hstmt, hv, _, _, _, rfl, rfl, rfl, (hiff _).mpr ⟨rfl, ⟨_, rfl⟩, rfl⟩⟩

end SymbolicCalculus
