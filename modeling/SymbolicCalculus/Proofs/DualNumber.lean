import SymbolicCalculus.Proofs.Derivation
import SymbolicCalculus.Proofs.Meaning

/-!
# Differentiation against dual numbers

A tree is evaluated together with its derivative at one point, as a pair of
rational numbers and without building any tree. Wherever this evaluation and the
tree that differentiation returns both have a value, the two derivatives agree.
-/

set_option autoImplicit false

namespace SymbolicCalculus

/-- The derivative of a function of one argument at `u`, with the functions that occur in
it taken from the interpretation. -/
def Unary.slope (I : Interpretation) (f : Unary) (u : ℚ) : Option ℚ :=
  let apply (g : Unary) (x : ℚ) : Option ℚ := I.function g.name [x]
  let reciprocal (x : ℚ) : Option ℚ := Operator.div.result? 1 x
  match f with
  | .sin => apply .cos u
  | .cos => do some (-(← apply .sin u))
  | .tan => do reciprocal ((← apply .cos u) ^ 2)
  | .asin => do reciprocal (← apply .sqrt (1 - u ^ 2))
  | .acos => do some (-(← reciprocal (← apply .sqrt (1 - u ^ 2))))
  | .atan => reciprocal (1 + u ^ 2)
  | .sinh => apply .cosh u
  | .cosh => apply .sinh u
  | .tanh => do reciprocal ((← apply .cosh u) ^ 2)
  | .asinh => do reciprocal (← apply .sqrt (u ^ 2 + 1))
  | .acosh => do reciprocal (← apply .sqrt (u ^ 2 - 1))
  | .atanh => reciprocal (1 - u ^ 2)
  | .exp => apply .exp u
  | .expm1 => apply .exp u
  | .log => reciprocal u
  | .log10 => do reciprocal (u * (← apply .log 10))
  | .log1p => reciprocal (1 + u)
  | .sqrt => do reciprocal (2 * (← apply .sqrt u))

structure Dual where
  value : ℚ
  slope : ℚ
  deriving DecidableEq

namespace Dual

/-- The power rule. The logarithm of the base is asked for only where the exponent
varies. -/
def power? (I : Interpretation) (b n : Dual) : Option Dual := do
  let value ← SymbolicCalculus.power? b.value n.value
  let plain := n.value * b.value ^ (n.value.num - 1) * b.slope
  if n.slope = 0 then some ⟨value, plain⟩
  else do
    let logarithm ← I.function "log" [b.value]
    some ⟨value, plain + value * logarithm * n.slope⟩

def operator? (I : Interpretation) : Operator → Dual → Dual → Option Dual
  | .add, u, v => some ⟨u.value + v.value, u.slope + v.slope⟩
  | .sub, u, v => some ⟨u.value - v.value, u.slope - v.slope⟩
  | .mul, u, v => some ⟨u.value * v.value, u.slope * v.value + u.value * v.slope⟩
  | .div, u, v =>
    if v.value = 0 then none
    else some ⟨u.value / v.value, (u.slope * v.value - u.value * v.slope) / v.value ^ 2⟩
  | .pow, u, v => power? I u v

end Dual

namespace Expr

mutual
def dual (I : Interpretation) (x : String) : Expr → Option Dual
  | .missing => none
  | .num v => some ⟨v.toInt, 0⟩
  | .sym name => do
    let value ← I.symbol name
    some ⟨value, if name = x then 1 else 0⟩
  | .binary op l r => do
    let u ← dual I x l
    let v ← dual I x r
    Dual.operator? I op u v
  | .neg e => do
    let u ← dual I x e
    some ⟨-u.value, -u.slope⟩
  | .call name args =>
    match resolve name args (duals I x args) with
    | .ok .pi => do
      let value ← I.function "pi" []
      some ⟨value, 0⟩
    | .ok (.unary f u) => do
      let u ← u
      let value ← I.function f.name [u.value]
      let outer ← f.slope I u.value
      some ⟨value, outer * u.slope⟩
    | .ok (.pow b n) => do
      let b ← b
      let n ← n
      Dual.power? I b n
    | .error _ => none
  | .stmt e => dual I x e
def duals (I : Interpretation) (x : String) : List Expr → List (Option Dual)
  | [] => []
  | a :: as => dual I x a :: duals I x as
end

variable {I : Interpretation} {x : String}

/-! ## The table of outer factors -/

theorem meaning_apply (g : Unary) (u : Expr) :
    meaning I (.call g.name [u]) = (meaning I u).bind fun y => I.function g.name [y] := by
  cases hu : meaning I u with
  | none => simp [meaning, meanings, hu]
  | some y => simp [meaning, meanings, hu, g.name_ne_pow]

theorem meaning_square (u : Expr) : meaning I u.square = (meaning I u).bind fun y => some (y ^ 2) := by
  have h2 : ∀ y : ℚ, power? y ((2 : ℤ) : ℚ) = some (y ^ 2) :=
    fun y => power?_intCast.mpr ⟨by simp, by norm_cast⟩
  simp only [square, meaning_binary_eq, meaning_num, Option.bind_some]
  exact congrArg _ (funext h2)

theorem meaning_reciprocal (u : Expr) :
    meaning I u.reciprocal = (meaning I u).bind fun y => Operator.div.result? 1 y := by
  simp [reciprocal, meaning_binary_eq]

theorem meaning_outer (f : Unary) {u : Expr} {y : ℚ} (hu : meaning I u = some y) :
    meaning I (f.outer u) = f.slope I y := by
  have h1 : meaning I (.num 1) = some 1 := meaning_num 1
  have h2 : meaning I (.num 2) = some 2 := meaning_num 2
  have h10 : meaning I (.num 10) = some 10 := meaning_num 10
  cases f <;>
    simp only [Unary.outer, Unary.slope, meaning_apply, meaning_square, meaning_reciprocal,
      meaning_binary_eq, meaning_neg_eq, hu, h1, h2, h10, Operator.result?_add, Operator.result?_sub,
      Operator.result?_mul, Option.bind_some, Option.bind_assoc, Option.bind_eq_bind]

/-! ## Dual numbers at a node -/

theorem dual_num {v : Int64} {d : Dual} : dual I x (.num v) = some d ↔ ⟨v.toInt, 0⟩ = d :=
  Option.some_inj

theorem dual_sym {name : String} {d : Dual} :
    dual I x (.sym name) = some d ↔
      ∃ value, I.symbol name = some value ∧ ⟨value, if name = x then 1 else 0⟩ = d := by
  change ((I.symbol name).bind fun value => some (⟨value, _⟩ : Dual)) = some d ↔ _
  simp [Option.bind_eq_some_iff]

theorem dual_stmt (e : Expr) : dual I x (.stmt e) = dual I x e :=
  rfl

theorem dual_binary {op : Operator} {l r : Expr} {d : Dual} :
    dual I x (.binary op l r) = some d ↔
      ∃ u, dual I x l = some u ∧ ∃ v, dual I x r = some v ∧ Dual.operator? I op u v = some d := by
  change ((dual I x l).bind fun u => (dual I x r).bind fun v => _) = some d ↔ _
  simp [Option.bind_eq_some_iff]

theorem dual_neg {e : Expr} {d : Dual} :
    dual I x (.neg e) = some d ↔ ∃ u, dual I x e = some u ∧ ⟨-u.value, -u.slope⟩ = d := by
  change ((dual I x e).bind fun u => some (⟨_, _⟩ : Dual)) = some d ↔ _
  simp [Option.bind_eq_some_iff]

theorem dual_pi {d : Dual} :
    dual I x (.call "pi" []) = some d ↔ ∃ value, I.function "pi" [] = some value ∧ ⟨value, 0⟩ = d := by
  simp [dual, duals, Option.bind_eq_some_iff]

theorem dual_unary {f : Unary} {e : Expr} {d : Dual} :
    dual I x (.call f.name [e]) = some d ↔
      ∃ u, dual I x e = some u ∧ ∃ value, I.function f.name [u.value] = some value ∧
        ∃ outer, f.slope I u.value = some outer ∧ ⟨value, outer * u.slope⟩ = d := by
  simp [dual, duals, Option.bind_eq_some_iff]

theorem dual_pow {b e : Expr} {d : Dual} :
    dual I x (.call "pow" [b, e]) = some d ↔
      ∃ u, dual I x b = some u ∧ ∃ v, dual I x e = some v ∧ Dual.power? I u v = some d := by
  simp [dual, duals, Option.bind_eq_some_iff]

/-- The exponent is an integer `k`, and the logarithm is there if the exponent varies. -/
theorem dual_power {b n d : Dual} (h : Dual.power? I b n = some d) :
    ∃ k : ℤ, n.value = k ∧ power? b.value n.value = some (b.value ^ k) ∧ d.value = b.value ^ k ∧
      ((n.slope = 0 ∧ d.slope = n.value * b.value ^ (k - 1) * b.slope) ∨
        ∃ logarithm, I.function "log" [b.value] = some logarithm ∧
          d.slope = n.value * b.value ^ (k - 1) * b.slope + b.value ^ k * logarithm * n.slope) := by
  simp only [Dual.power?, Option.bind_eq_bind, Option.bind_eq_some_iff] at h
  obtain ⟨value, hvalue, h⟩ := h
  obtain ⟨k, hk, _, rfl⟩ := power?_eq_some.mp hvalue
  have hnum : n.value.num = k := by rw [hk, Rat.num_intCast]
  rw [hnum] at h
  refine ⟨k, hk, hvalue, ?_⟩
  split_ifs at h with hs
  · cases h
    exact ⟨rfl, Or.inl ⟨hs, rfl⟩⟩
  · simp only [Option.bind_eq_some_iff] at h
    obtain ⟨logarithm, hlog, h⟩ := h
    cases h
    exact ⟨rfl, Or.inr ⟨logarithm, hlog, rfl⟩⟩

theorem dual_operator_value {op : Operator} {u v d : Dual} (h : Dual.operator? I op u v = some d) :
    op.result? u.value v.value = some d.value := by
  cases op with
  | add => cases h; rfl
  | sub => cases h; rfl
  | mul => cases h; rfl
  | div =>
    simp only [Dual.operator?] at h
    split_ifs at h with hv
    cases h
    exact Operator.result?_div.mpr ⟨hv, rfl⟩
  | pow =>
    obtain ⟨k, _, hp, hd, _⟩ := dual_power h
    rw [hd]
    exact hp

theorem dual_value {e : Expr} (h : WellFormed e) {d : Dual} (hd : dual I x e = some d) :
    meaning I e = some d.value := by
  induction h generalizing d with
  | num v =>
    obtain rfl := dual_num.mp hd
    exact meaning_num v
  | sym _ =>
    obtain ⟨value, hvalue, rfl⟩ := dual_sym.mp hd
    exact (meaning_sym _).trans hvalue
  | binary op _ _ ihl ihr =>
    obtain ⟨u, hu, v, hv, hop⟩ := dual_binary.mp hd
    exact meaning_binary.mpr ⟨_, ihl hu, _, ihr hv, dual_operator_value hop⟩
  | neg _ ih =>
    obtain ⟨u, hu, rfl⟩ := dual_neg.mp hd
    exact meaning_neg.mpr ⟨_, ih hu, rfl⟩
  | pi =>
    obtain ⟨value, hvalue, rfl⟩ := dual_pi.mp hd
    exact (meaning_call (by decide)).mpr ⟨[], .nil, hvalue⟩
  | unary f _ ih =>
    obtain ⟨u, hu, value, hvalue, _, _, rfl⟩ := dual_unary.mp hd
    rw [meaning_apply, ih hu]
    exact hvalue
  | pow _ _ ihb ihe =>
    obtain ⟨u, hu, v, hv, hp⟩ := dual_pow.mp hd
    obtain ⟨k, _, hk, hvalue, _⟩ := dual_power hp
    exact (meaning_build .call).mpr ⟨_, ihb hu, _, ihe hv, hvalue ▸ hk⟩
  | stmt _ ih =>
    rw [dual_stmt] at hd
    rw [meaning_stmt]
    exact ih hd

theorem dual_power_constant {u v d : Dual} (hu : u.slope = 0) (hv : v.slope = 0)
    (h : Dual.power? I u v = some d) : d.slope = 0 := by
  obtain ⟨k, _, _, _, ⟨_, hd⟩ | ⟨_, _, hd⟩⟩ := dual_power h
  · simp [hd, hu]
  · simp [hd, hu, hv]

theorem dual_operator_constant {op : Operator} {u v d : Dual} (hu : u.slope = 0) (hv : v.slope = 0)
    (h : Dual.operator? I op u v = some d) : d.slope = 0 := by
  cases op with
  | add => cases h; simp [hu, hv]
  | sub => cases h; simp [hu, hv]
  | mul => cases h; simp [hu, hv]
  | div =>
    simp only [Dual.operator?] at h
    split_ifs at h
    cases h
    simp [hu, hv]
  | pow => exact dual_power_constant hu hv h

theorem dual_constant {e : Expr} (h : WellFormed e) (hx : e.dependsOn x = false) {d : Dual}
    (hd : dual I x e = some d) : d.slope = 0 := by
  induction h generalizing d with
  | num v =>
    obtain rfl := dual_num.mp hd
    rfl
  | sym _ =>
    simp only [dependsOn, decide_eq_false_iff_not] at hx
    obtain ⟨value, _, rfl⟩ := dual_sym.mp hd
    simp [hx]
  | binary op _ _ ihl ihr =>
    simp only [dependsOn, Bool.or_eq_false_iff] at hx
    obtain ⟨u, hu, v, hv, hop⟩ := dual_binary.mp hd
    exact dual_operator_constant (ihl hx.1 hu) (ihr hx.2 hv) hop
  | neg _ ih =>
    obtain ⟨u, hu, rfl⟩ := dual_neg.mp hd
    simp [ih (by simpa [dependsOn] using hx) hu]
  | pi =>
    obtain ⟨value, _, rfl⟩ := dual_pi.mp hd
    rfl
  | unary f _ ih =>
    simp only [dependsOn, anyDependsOn, Bool.or_false] at hx
    obtain ⟨u, hu, value, _, outer, _, rfl⟩ := dual_unary.mp hd
    simp [ih hx hu]
  | pow _ _ ihb ihe =>
    simp only [dependsOn, anyDependsOn, Bool.or_false, Bool.or_eq_false_iff] at hx
    obtain ⟨u, hu, v, hv, hp⟩ := dual_pow.mp hd
    exact dual_power_constant (ihb hx.1 hu) (ihe hx.2 hv) hp
  | stmt _ ih =>
    rw [dual_stmt] at hd
    exact ih (by simpa [dependsOn] using hx) hd

/-! ## Trees with at most one value -/

def ValueIs (I : Interpretation) (e : Expr) (q : ℚ) : Prop :=
  ∀ m, meaning I e = some m → m = q

namespace ValueIs
variable {l r : Expr} {a b : ℚ}

theorem of_meaning (h : meaning I l = some a) : ValueIs I l a := by
  intro m hm
  exact Option.some.inj (hm.symm.trans h)

theorem num (v : Int64) : ValueIs I (.num v) v.toInt :=
  of_meaning (meaning_num v)

theorem neg (h : ValueIs I l a) : ValueIs I (.neg l) (-a) := by
  intro m hm
  obtain ⟨y, hy, rfl⟩ := meaning_neg.mp hm
  rw [h y hy]

theorem stmt (h : ValueIs I l a) : ValueIs I (.stmt l) a := by
  intro m hm
  exact h m (by simpa using hm)

theorem binary {op : Operator} {q : ℚ} (hl : ValueIs I l a) (hr : ValueIs I r b)
    (h : ∀ m, op.result? a b = some m → m = q) : ValueIs I (.binary op l r) q := by
  intro m hm
  obtain ⟨x, hx, y, hy, hop⟩ := meaning_binary.mp hm
  rw [hl x hx, hr y hy] at hop
  exact h m hop

theorem add (hl : ValueIs I l a) (hr : ValueIs I r b) : ValueIs I (.add l r) (a + b) :=
  binary hl hr fun _ h => (Option.some.inj h).symm

theorem sub (hl : ValueIs I l a) (hr : ValueIs I r b) : ValueIs I (.sub l r) (a - b) :=
  binary hl hr fun _ h => (Option.some.inj h).symm

theorem mul (hl : ValueIs I l a) (hr : ValueIs I r b) : ValueIs I (.mul l r) (a * b) :=
  binary hl hr fun _ h => (Option.some.inj h).symm

/-- A zero factor decides the product, whatever stands before it. -/
theorem mul_zero (hr : ValueIs I r 0) : ValueIs I (.mul l r) 0 := by
  intro m hm
  obtain ⟨x, _, y, hy, hop⟩ := meaning_binary.mp hm
  rw [hr y hy, Operator.result?_mul, MulZeroClass.mul_zero] at hop
  exact (Option.some.inj hop).symm

theorem div (hl : ValueIs I l a) (hr : ValueIs I r b) : ValueIs I (.div l r) (a / b) :=
  binary hl hr fun _ h => (Operator.result?_div.mp h).2.symm

theorem build (form : PowerForm) {k : ℤ} (hl : ValueIs I l a) (hr : ValueIs I r k) :
    ValueIs I (form.build l r) (a ^ k) := by
  intro m hm
  obtain ⟨x, hx, n, hn, hp⟩ := (meaning_build form).mp hm
  rw [hl x hx, hr n hn] at hp
  exact (power?_intCast.mp hp).2.symm

theorem square (h : ValueIs I l a) : ValueIs I l.square (a ^ 2) := by
  have hp := build .node h (num 2)
  exact_mod_cast hp

end ValueIs

/-! ## The rules of differentiation -/

/-- The plain rule where the variable does not occur in the exponent, the logarithmic rule
otherwise: both give the second component of the dual power. -/
theorem powerRule_value (form : PowerForm) {v : String} {b e db de : Expr} {u w d : Dual}
    (hb : meaning I b = some u.value) (he : meaning I e = some w.value)
    (hdb : ValueIs I db u.slope) (hde : ValueIs I de w.slope)
    (hconst : e.dependsOn v = false → w.slope = 0) (hd : Dual.power? I u w = some d) :
    ValueIs I (powerRule form v b e db de) d.slope := by
  obtain ⟨k, hk, _, _, hslope⟩ := dual_power hd
  have hbase := ValueIs.of_meaning hb
  have hexp : ValueIs I e k := hk ▸ ValueIs.of_meaning he
  have hless : ValueIs I (.sub e (.num 1)) ((k - 1 : ℤ) : ℚ) := by
    have h := hexp.sub (.num 1)
    exact_mod_cast h
  have hplain := (hexp.mul (hbase.build form hless)).mul hdb
  rw [← hk] at hplain
  unfold powerRule
  rcases hslope with ⟨hs, hd⟩ | ⟨logarithm, hlog, hd⟩
  · rw [hs] at hde
    split_ifs
    · rw [hd, ← add_zero (_ * _)]
      exact hplain.add hde.mul_zero
    · rw [hd]
      exact hplain
  · have hl : ValueIs I (.call "log" [b]) logarithm := by
      have happly := meaning_apply (I := I) .log b
      rw [hb] at happly
      exact ValueIs.of_meaning (happly.trans hlog)
    split_ifs with hdep
    · rw [hd]
      exact hplain.add (((hbase.build form hexp).mul hl).mul hde)
    · rw [hd, hconst (by simpa using hdep), MulZeroClass.mul_zero, add_zero]
      exact hplain

theorem operatorRule_value {op : Operator} {v : String} {l r dl dr : Expr} {u w d : Dual}
    (hl : meaning I l = some u.value) (hr : meaning I r = some w.value)
    (hdl : ValueIs I dl u.slope) (hdr : ValueIs I dr w.slope)
    (hconst : r.dependsOn v = false → w.slope = 0) (hd : Dual.operator? I op u w = some d) :
    ValueIs I (operatorRule op v l r dl dr) d.slope := by
  have hu := ValueIs.of_meaning hl
  have hw := ValueIs.of_meaning hr
  cases op with
  | add => cases hd; exact hdl.add hdr
  | sub => cases hd; exact hdl.sub hdr
  | mul => cases hd; exact (hdl.mul hw).add (hu.mul hdr)
  | div =>
    simp only [Dual.operator?] at hd
    split_ifs at hd
    cases hd
    exact ((hdl.mul hw).sub (hu.mul hdr)).div hw.square
  | pow => exact powerRule_value .node hl hr hdl hdr hconst hd

/-- Differentiation of a well-formed tree succeeds, and the value of the derivative, where
there is one, is the second component of the dual evaluation. -/
theorem derive_value {e : Expr} (h : WellFormed e) (x : String) :
    ∃ d, derive x e = .ok d ∧
      ∀ (I : Interpretation) (D : Dual), dual I x e = some D → ValueIs I d D.slope := by
  induction h with
  | num v =>
    refine ⟨_, rfl, fun I D hD => ?_⟩
    obtain rfl := dual_num.mp hD
    simpa using ValueIs.num (I := I) 0
  | @sym name _ =>
    refine ⟨_, rfl, fun I D hD => ?_⟩
    obtain ⟨value, _, rfl⟩ := dual_sym.mp hD
    by_cases hname : name = x
    · simpa [hname] using ValueIs.num (I := I) 1
    · simpa [hname] using ValueIs.num (I := I) 0
  | @binary op l r hl hr ihl ihr =>
    obtain ⟨dl, hdl, ihl⟩ := ihl
    obtain ⟨dr, hdr, ihr⟩ := ihr
    refine ⟨_, derive_binary.mpr ⟨dl, hdl, dr, hdr, rfl⟩, fun I D hD => ?_⟩
    obtain ⟨u, hu, w, hw, hop⟩ := dual_binary.mp hD
    exact operatorRule_value (dual_value hl hu) (dual_value hr hw) (ihl I u hu) (ihr I w hw)
      (fun hx => dual_constant hr hx hw) hop
  | neg _ ih =>
    obtain ⟨d, hd, ih⟩ := ih
    refine ⟨_, derive_neg.mpr ⟨d, hd, rfl⟩, fun I D hD => ?_⟩
    obtain ⟨u, hu, rfl⟩ := dual_neg.mp hD
    exact (ih I u hu).neg
  | pi =>
    refine ⟨_, derive_pi.mpr rfl, fun I D hD => ?_⟩
    obtain ⟨value, _, rfl⟩ := dual_pi.mp hD
    simpa using ValueIs.num (I := I) 0
  | @unary f u hu ih =>
    obtain ⟨d, hd, ih⟩ := ih
    refine ⟨_, derive_unary.mpr ⟨d, hd, rfl⟩, fun I D hD => ?_⟩
    obtain ⟨w, hw, value, _, outer, houter, rfl⟩ := dual_unary.mp hD
    rw [← meaning_outer f (dual_value hu hw)] at houter
    exact (ValueIs.of_meaning houter).mul (ih I w hw)
  | @pow b e hb he ihb ihe =>
    obtain ⟨db, hdb, ihb⟩ := ihb
    obtain ⟨de, hde, ihe⟩ := ihe
    refine ⟨_, derive_pow.mpr ⟨db, hdb, de, hde, rfl⟩, fun I D hD => ?_⟩
    obtain ⟨u, hu, w, hw, hp⟩ := dual_pow.mp hD
    exact powerRule_value .call (dual_value hb hu) (dual_value he hw) (ihb I u hu) (ihe I w hw)
      (fun hx => dual_constant he hx hw) hp
  | stmt _ ih =>
    obtain ⟨d, hd, ih⟩ := ih
    refine ⟨_, derive_stmt.mpr ⟨d, hd, rfl⟩, fun I D hD => ?_⟩
    rw [dual_stmt] at hD
    exact (ih I D hD).stmt

end Expr

/-- Every well-formed tree has a derivative, and where the derivative and the dual
evaluation of the tree both have a value, they agree. -/
theorem differentiate_dual (e : Expr) (h : validate e = .ok ()) (x : String) :
    ∃ d, differentiate x e = .ok d ∧
      ∀ (I : Interpretation) (D : Dual) (m : ℚ),
        e.dual I x = some D → d.meaning I = some m → m = D.slope := by
  obtain ⟨d, hd, hvalue⟩ := Expr.derive_value (validate_eq_ok_iff.mp h) x
  exact ⟨d, differentiate_eq_ok.mpr hd, fun I D m hD hm => hvalue I D hD m hm⟩

/-- The logarithmic rule for `pow(x, x)` at `x = 2`, with `log` read as the constant `3`. -/
theorem differentiate_dual_self_power :
    ∃ d m, differentiate "x" (.call "pow" [.sym "x", .sym "x"]) = .ok d ∧
      d.meaning ⟨fun _ => some 2, fun _ _ => some 3⟩ = some m ∧ m = 16 := by
  obtain ⟨d, hd, h⟩ := differentiate_dual (.call "pow" [.sym "x", .sym "x"]) rfl "x"
  have hm : d.meaning ⟨fun _ => some 2, fun _ _ => some 3⟩ = some 16 := by
    cases hd
    decide +kernel
  exact ⟨d, 16, hd, hm, h _ ⟨4, 16⟩ 16 (by decide +kernel) hm⟩

end SymbolicCalculus
