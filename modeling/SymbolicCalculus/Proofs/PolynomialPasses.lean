import SymbolicCalculus.Proofs.ConstantFolding
import SymbolicCalculus.Proofs.Independence

/-!
# Where polynomials have derivatives

A polynomial whose exponents are positive can be simplified, and once it is simplified
every order of its derivative exists. Only the first pass, which runs over the tree as it
was given, can stop: the power rule lowers the exponent one to zero, and if the base
simplifies to zero the result is zero to the power zero. One such power anywhere in the
tree stops the pass, and nothing else does.
-/

set_option autoImplicit false

namespace SymbolicCalculus
open Checked

namespace Expr

/-- Integers, variables and their sums, differences, products and negations, and powers in
either form whose exponent is a positive integer. -/
inductive PositivePowers : Expr → Prop
  | num (v : Int64) : PositivePowers (.num v)
  | sym (name : String) : PositivePowers (.sym name)
  | add {l r : Expr} (hl : PositivePowers l) (hr : PositivePowers r) : PositivePowers (.add l r)
  | sub {l r : Expr} (hl : PositivePowers l) (hr : PositivePowers r) : PositivePowers (.sub l r)
  | mul {l r : Expr} (hl : PositivePowers l) (hr : PositivePowers r) : PositivePowers (.mul l r)
  | neg {x : Expr} (hx : PositivePowers x) : PositivePowers (.neg x)
  | power (form : PowerForm) {b : Expr} {k : Int64} (hk : 1 ≤ k.toInt) (hb : PositivePowers b) :
      PositivePowers (form.build b (.num k))

/-- A power with the exponent one whose base simplifies to zero. -/
def FirstPowerOfZero (t : Expr) : Prop :=
  ∃ (form : PowerForm) (b : Expr), t = form.build b (.num 1) ∧ simplify b = .ok (.num 0)

def Smooth : Expr → Prop :=
  Throughout fun t => ¬ FirstPowerOfZero t

theorem not_firstPowerOfZero {t : Expr} (h : ∀ (form : PowerForm) (b e : Expr), t ≠ form.build b e) :
    ¬ FirstPowerOfZero t := by
  rintro ⟨form, b, rfl, _⟩
  exact h form b _ rfl

section
variable {l r x : Expr}

theorem smooth_leaf {t : Expr} (hleaf : t.subtrees = [t])
    (h : ∀ (form : PowerForm) (b e : Expr), t ≠ form.build b e) : Smooth t := by
  intro s hs
  rw [hleaf, List.mem_singleton] at hs
  rw [hs]
  exact not_firstPowerOfZero h

theorem smooth_num (v : Int64) : Smooth (.num v) :=
  smooth_leaf rfl fun form b e h => build_ne_num form b e v h.symm

theorem smooth_sym (name : String) : Smooth (.sym name) := by
  refine smooth_leaf rfl ?_
  rintro (_ | _) b e ⟨⟩

theorem smooth_binary {op : Operator} (hop : op ≠ .pow) :
    Smooth (.binary op l r) ↔ Smooth l ∧ Smooth r := by
  have hself : ¬ FirstPowerOfZero (.binary op l r) := by
    refine not_firstPowerOfZero ?_
    rintro (_ | _) b e ⟨⟩
    exact hop rfl
  exact throughout_binary.trans (and_iff_right hself)

theorem not_smooth_binary {op : Operator} (hop : op ≠ .pow) (h : ¬ Smooth (.binary op l r)) :
    ¬ Smooth l ∨ Smooth l ∧ ¬ Smooth r := by
  rw [smooth_binary hop] at h
  by_cases hl : Smooth l
  · exact Or.inr ⟨hl, fun hr => h ⟨hl, hr⟩⟩
  · exact Or.inl hl

theorem smooth_neg : Smooth (.neg x) ↔ Smooth x := by
  have hself : ¬ FirstPowerOfZero (.neg x) := by
    refine not_firstPowerOfZero ?_
    rintro (_ | _) b e ⟨⟩
  exact throughout_neg.trans (and_iff_right hself)

theorem smooth_build (form : PowerForm) {b : Expr} {k : Int64} :
    Smooth (form.build b (.num k)) ↔ (k = 1 → simplify b ≠ .ok (.num 0)) ∧ Smooth b := by
  have hself : ¬ FirstPowerOfZero (form.build b (.num k)) ↔
      (k = 1 → simplify b ≠ .ok (.num 0)) := by
    constructor
    · rintro h rfl hb
      exact h ⟨form, b, rfl, hb⟩
    · rintro h ⟨form', b', heq, hb⟩
      obtain ⟨rfl, hk⟩ := build_inj heq
      exact h (Expr.num.inj hk) hb
  rw [← hself]
  cases form with
  | node => exact throughout_binary.trans (and_congr_right fun _ => and_iff_left (smooth_num k))
  | call =>
    refine throughout_call.trans (and_congr_right fun _ => ?_)
    rw [List.forall_mem_cons, List.forall_mem_singleton]
    exact and_iff_left (smooth_num k)

end

/-! ## What stops the first pass -/

def Stuck (e : Expr) : Prop :=
  ∃ f, reduce e = .error f ∧ f.kind = .indeterminateForm

section
variable {l r x : Expr}

theorem Stuck.left (op : Operator) (hl : Stuck l) (r : Expr) : Stuck (.binary op l r) := by
  obtain ⟨f, hf, hkind⟩ := hl
  refine ⟨f, ?_, hkind⟩
  rw [reduce, hf]
  rfl

theorem Stuck.right (op : Operator) (hl : Tame l) (hr : Stuck r) : Stuck (.binary op l r) := by
  obtain ⟨l', hl', _⟩ := hl
  obtain ⟨f, hf, hkind⟩ := hr
  refine ⟨f, ?_, hkind⟩
  rw [reduce, hl', hf]
  rfl

theorem Stuck.neg (hx : Stuck x) : Stuck (.neg x) := by
  obtain ⟨f, hf, hkind⟩ := hx
  refine ⟨f, ?_, hkind⟩
  rw [reduce, hf]
  rfl

theorem stuck_lowered (form : PowerForm) {b : Expr} (hb : reduce b = .ok (.num 0)) :
    Stuck (form.build b (.sub (.num 1) (.num 1))) := by
  refine ⟨⟨.zeroToZero, form.build (.num 0) (.num 0)⟩, ?_, rfl⟩
  rw [reduce_build, hb]
  rfl

end

/-! ## Simplification of powers -/

theorem power_zero_base (form : PowerForm) {j : Int64} (hj : 0 < j.toInt) :
    Expr.power form (.num 0) (.num j) = .ok (.num 0) := by
  have hexponent : j.toInt.toNat ≠ 0 := by omega
  refine power_integers form ?_
  rw [Int64.toInt_zero, Operator.integer?, if_pos (by omega), zero_pow hexponent]

theorem Tame.power (form : PowerForm) {b e : Expr} {j : Int64} (hb : Tame b)
    (he : reduce e = .ok (.num j)) (hj : 0 ≤ j.toInt) (h : j = 0 → reduce b ≠ .ok (.num 0)) :
    Tame (form.build b e) := by
  obtain ⟨b', hb', hregular⟩ := hb
  have hpower : ∃ s, Expr.power form b' (.num j) = .ok s := by
    by_cases hz : b' = .num 0
    · subst hz
      have hne : j.toInt ≠ 0 := fun hzero => h (toInt_eq_zero_iff.mp hzero) hb'
      exact ⟨_, power_zero_base form (by omega)⟩
    · obtain ⟨s, hs, _⟩ := (raises_power form b' (.num j)).nonzero (reduce_redexFree hb') hz
      exact ⟨s, hs⟩
  obtain ⟨s, hs⟩ := hpower
  have hsettles := power_settles form hereditary_regular hregular (hereditary_regular.num j)
  rw [hs] at hsettles
  refine ⟨s, ?_, hsettles.of_ok⟩
  rw [reduce_build, hb', he]
  exact hs

/-- What the power rule puts in front of the derivative of the base. -/
theorem Tame.lowered (form : PowerForm) {b : Expr} {k : Int64} (hb : Tame b) (hk : 1 ≤ k.toInt)
    (h : k = 1 → simplify b ≠ .ok (.num 0)) :
    Tame (.mul (.num k) (form.build b (.sub (.num k) (.num 1)))) := by
  obtain ⟨j, hj, hreduce⟩ := reduce_lowered (k := k) (by omega)
  refine (Tame.num k).mul (hb.power form hreduce (by omega) fun hzero hb' => ?_)
  rw [hzero, Int64.toInt_zero] at hj
  have hone : k.toInt = Int64.toInt 1 := by
    rw [Int64.toInt_one]
    omega
  exact h (Int64.toInt.inj hone) (simplify_eq_ok.mpr hb')

namespace PositivePowers

variable {v : String} {e d : Expr}

theorem tame (h : PositivePowers e) : Tame e := by
  induction h with
  | num v => exact .num v
  | sym name =>
    refine (RedexFree.sym name).tame fun t ht hmem => ?_
    obtain rfl := List.mem_singleton.mp hmem
    exact not_singular_of_not_call (by simp) ht
  | add _ _ ihl ihr => exact ihl.add ihr
  | sub _ _ ihl ihr => exact ihl.sub ihr
  | mul _ _ ihl ihr => exact ihl.mul ihr
  | neg _ ih => exact ih.neg
  | power form hk _ ih =>
    refine ih.power form rfl (by omega) ?_
    rintro rfl
    exact absurd hk (by decide)

theorem derivable (h : PositivePowers e) (v : String) : Derivable v e := by
  have hP := inherited_derivable v
  induction h with
  | num v => exact hP.num v
  | sym name => exact ⟨_, rfl⟩
  | add _ _ ihl ihr => exact (hP.binary _ _ _).mpr ⟨ihl, ihr⟩
  | sub _ _ ihl ihr => exact (hP.binary _ _ _).mpr ⟨ihl, ihr⟩
  | mul _ _ ihl ihr => exact (hP.binary _ _ _).mpr ⟨ihl, ihr⟩
  | neg _ ih => exact (hP.neg _).mpr ih
  | power form _ _ ih => exact (hP.build form _ _).mpr ⟨ih, hP.num _⟩

/-! ## The first pass -/

theorem derive_tame (h : PositivePowers e) (hs : Smooth e) (hd : derive v e = .ok d) : Tame d := by
  induction h generalizing d with
  | num _ => cases hd; exact .num 0
  | sym _ => cases hd; exact .num _
  | add _ _ ihl ihr =>
    obtain ⟨dl, hdl, dr, hdr, rfl⟩ := derive_binary.mp hd
    obtain ⟨hl, hr⟩ := (smooth_binary (by decide)).mp hs
    exact (ihl hl hdl).add (ihr hr hdr)
  | sub _ _ ihl ihr =>
    obtain ⟨dl, hdl, dr, hdr, rfl⟩ := derive_binary.mp hd
    obtain ⟨hl, hr⟩ := (smooth_binary (by decide)).mp hs
    exact (ihl hl hdl).sub (ihr hr hdr)
  | mul hleft hright ihl ihr =>
    obtain ⟨dl, hdl, dr, hdr, rfl⟩ := derive_binary.mp hd
    obtain ⟨hl, hr⟩ := (smooth_binary (by decide)).mp hs
    exact ((ihl hl hdl).mul hright.tame).add (hleft.tame.mul (ihr hr hdr))
  | neg _ ih =>
    obtain ⟨dx, hdx, rfl⟩ := derive_neg.mp hd
    exact (ih (smooth_neg.mp hs) hdx).neg
  | power form hk hb ih =>
    obtain ⟨db, hdb, de, _, rfl⟩ := (derive_build form).mp hd
    obtain ⟨hone, hbase⟩ := (smooth_build form).mp hs
    exact (hb.tame.lowered form hk hone).mul (ih hbase hdb)

/-- Operands are simplified from left to right, so whatever stands left of the first stuck
derivative has a result. -/
theorem derive_stuck (h : PositivePowers e) (hs : ¬ Smooth e) (hd : derive v e = .ok d) :
    Stuck d := by
  induction h generalizing d with
  | num v => exact (hs (smooth_num v)).elim
  | sym name => exact (hs (smooth_sym name)).elim
  | add hleft _ ihl ihr =>
    obtain ⟨dl, hdl, dr, hdr, rfl⟩ := derive_binary.mp hd
    rcases not_smooth_binary (by decide) hs with hl | ⟨hl, hr⟩
    · exact (ihl hl hdl).left .add dr
    · exact .right .add (hleft.derive_tame hl hdl) (ihr hr hdr)
  | sub hleft _ ihl ihr =>
    obtain ⟨dl, hdl, dr, hdr, rfl⟩ := derive_binary.mp hd
    rcases not_smooth_binary (by decide) hs with hl | ⟨hl, hr⟩
    · exact (ihl hl hdl).left .sub dr
    · exact .right .sub (hleft.derive_tame hl hdl) (ihr hr hdr)
  | mul hleft hright ihl ihr =>
    obtain ⟨dl, hdl, dr, hdr, rfl⟩ := derive_binary.mp hd
    rcases not_smooth_binary (by decide) hs with hl | ⟨hl, hr⟩
    · exact ((ihl hl hdl).left .mul _).left .add _
    · exact .right .add ((hleft.derive_tame hl hdl).mul hright.tame)
        (.right .mul hleft.tame (ihr hr hdr))
  | neg _ ih =>
    obtain ⟨dx, hdx, rfl⟩ := derive_neg.mp hd
    exact (ih (fun hx => hs (smooth_neg.mpr hx)) hdx).neg
  | @power form b k hk hb ih =>
    obtain ⟨db, hdb, de, _, rfl⟩ := (derive_build form).mp hd
    by_cases hone : k = 1 → simplify b ≠ .ok (.num 0)
    · have hbase : ¬ Smooth b := fun hbase => hs ((smooth_build form).mpr ⟨hone, hbase⟩)
      exact .right .mul (hb.tame.lowered form hk hone) (ih hbase hdb)
    · push Not at hone
      obtain ⟨rfl, hzero⟩ := hone
      exact (Stuck.right .mul (.num 1) (stuck_lowered form (simplify_eq_ok.mp hzero))).left .mul db

theorem pass (h : PositivePowers e) (hs : Smooth e) (v : String) :
    ∃ s, differentiateSimplify v e = .ok s ∧ Durable v s := by
  obtain ⟨d, hd⟩ := h.derivable v
  exact durable_of_tame hd (h.derive_tame hs hd)

theorem pass_stuck (h : PositivePowers e) (hs : ¬ Smooth e) (v : String) :
    ∃ err, differentiateSimplify v e = .error err ∧ err.kind? = some .indeterminateForm := by
  obtain ⟨d, hd⟩ := h.derivable v
  obtain ⟨f, hf, hkind⟩ := h.derive_stuck hs hd
  refine ⟨.during .simplifying (.fault f), ?_, congrArg some hkind⟩
  rw [differentiateSimplify, differentiate_eq_ok.mpr hd]
  show simplify d = _
  rw [simplify, hf]
  rfl

end PositivePowers

end Expr

/-- A polynomial with positive exponents has derivatives of every order, unless a power
with the exponent one occurs in it whose base simplifies to zero. Then the first pass
stops, whatever the variable is, at zero to the power zero. -/
theorem differentiateTimes_positivePowers (e : Expr) (he : e.PositivePowers) (x : String) (n : ℤ)
    (hn : 0 ≤ n) :
    ((n = 0 ∨ ∀ t ∈ e.subtrees, ¬ t.FirstPowerOfZero) → ∃ d, differentiateTimes x n e = .ok d) ∧
      (0 < n → (∃ t ∈ e.subtrees, t.FirstPowerOfZero) →
        Error.outcome (differentiateTimes x n e) = .error (some .indeterminateForm)) := by
  obtain ⟨d, hd⟩ := he.derivable x
  rw [differentiateTimes, if_neg (by omega), if_neg (by simp [Expr.isMissing_of_derive hd])]
  obtain ⟨k, rfl⟩ := Int.eq_ofNat_of_zero_le hn
  rw [Int.toNat_natCast]
  cases k with
  | zero =>
    refine ⟨fun _ => ⟨e, rfl⟩, fun hpos => ?_⟩
    omega
  | succ k =>
    rw [passes]
    constructor
    · rintro (hzero | hsmooth)
      · omega
      · obtain ⟨s, hs, hdurable⟩ := he.pass hsmooth x
        obtain ⟨d, hd, _⟩ := hdurable.passes k 1
        rw [hs]
        exact ⟨d, hd⟩
    · rintro _ ⟨t, ht, hfirst⟩
      obtain ⟨err, herr, hkind⟩ := he.pass_stuck (fun hsmooth => hsmooth t ht hfirst) x
      rw [herr]
      exact congrArg Except.error hkind

/-- `pow(x - x, 2) * y^1`, by `x` to the order 40: the base that vanishes has another exponent
than one. -/
theorem differentiateTimes_positivePowers_square :
    let e : Expr := .mul (.call "pow" [.sub (.sym "x") (.sym "x"), .num 2])
      (.pow (.sym "y") (.num 1))
    e.PositivePowers ∧ (∀ t ∈ e.subtrees, ¬ t.FirstPowerOfZero) ∧
      ∃ d, differentiateTimes "x" 40 e = .ok d := by
  intro e
  have he : e.PositivePowers :=
    .mul (.power .call (by decide) (.sub (.sym "x") (.sym "x")))
      (.power .node (by decide) (.sym "y"))
  have hsmooth : e.Smooth := by
    refine (Expr.smooth_binary (by decide)).mpr
      ⟨(Expr.smooth_build .call).mpr ⟨fun h => absurd h (by decide), ?_⟩,
        (Expr.smooth_build .node).mpr ⟨fun _ => ?_, Expr.smooth_sym "y"⟩⟩
    · exact (Expr.smooth_binary (by decide)).mpr ⟨Expr.smooth_sym "x", Expr.smooth_sym "x"⟩
    · rintro ⟨⟩
  exact ⟨he, hsmooth,
    (differentiateTimes_positivePowers e he "x" 40 (by decide)).1 (Or.inr hsmooth)⟩

/-- `0^1` is zero, and the pass over it stops all the same. -/
theorem differentiateTimes_first_power_of_zero :
    (Expr.pow (.num 0) (.num 1)).PositivePowers ∧
      simplify (.pow (.num 0) (.num 1)) = .ok (.num 0) ∧
      Error.outcome (differentiateTimes "x" 1 (.pow (.num 0) (.num 1))) =
        .error (some .indeterminateForm) :=
  ⟨.power .node (by decide) (.num 0), rfl, rfl⟩

end SymbolicCalculus
