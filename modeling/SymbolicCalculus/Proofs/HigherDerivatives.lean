import SymbolicCalculus.Proofs.NormalForm
import SymbolicCalculus.Proofs.Preservation

/-!
# Higher derivatives of simplified trees

A pass over a simplified tree makes new quotients and new powers: from the quotient
rule, from the power rule and from the table of outer factors. None of their divisors
and none of their bases simplifies to zero, provided that five calls do not occur whose
outer factor divides by zero. No pass brings such a call in, so every order succeeds.
-/

set_option autoImplicit false

namespace SymbolicCalculus
open Checked

namespace Expr

/-! ## Parts of a tree -/

mutual
def subtrees : Expr → List Expr
  | .missing => [.missing]
  | .num v => [.num v]
  | .sym name => [.sym name]
  | .binary op l r => .binary op l r :: (subtrees l ++ subtrees r)
  | .neg x => .neg x :: subtrees x
  | .call name args => .call name args :: subtreesAll args
  | .stmt x => .stmt x :: subtrees x
def subtreesAll : List Expr → List Expr
  | [] => []
  | a :: as => subtrees a ++ subtreesAll as
end

/-- The calls whose outer factor divides by zero. -/
def singularCalls : List Expr :=
  [.call "log" [.num 0], .call "log10" [.num 0], .call "log1p" [.num (-1)],
    .call "atanh" [.num 1], .call "atanh" [.num (-1)]]

def Regular (e : Expr) : Prop :=
  ∀ t ∈ singularCalls, t ∉ e.subtrees

instance (e : Expr) : Decidable e.Regular :=
  inferInstanceAs (Decidable (∀ t ∈ singularCalls, t ∉ e.subtrees))

theorem mem_subtrees_self (e : Expr) : e ∈ e.subtrees := by
  cases e <;> simp [subtrees]

theorem mem_subtreesAll {t : Expr} {args : List Expr} :
    t ∈ subtreesAll args ↔ ∃ a ∈ args, t ∈ subtrees a := by
  induction args with
  | nil => simp [subtreesAll]
  | cons a as ih => simp [subtreesAll, ih]

theorem regular_call {name : String} {args : List Expr} :
    Regular (.call name args) ↔ .call name args ∉ singularCalls ∧ ∀ a ∈ args, Regular a := by
  constructor
  · intro h
    refine ⟨fun hself => h _ hself (by simp [subtrees]), fun a ha t ht hmem => h t ht ?_⟩
    rw [subtrees, List.mem_cons, mem_subtreesAll]
    exact Or.inr ⟨a, ha, hmem⟩
  · rintro ⟨hself, hargs⟩ t ht hmem
    rw [subtrees, List.mem_cons, mem_subtreesAll] at hmem
    rcases hmem with rfl | ⟨a, ha, hmem⟩
    · exact hself ht
    · exact hargs a ha t ht hmem

theorem not_singular_of_not_call {t : Expr} (h : ∀ name args, t ≠ .call name args) :
    t ∉ singularCalls := by
  simp [singularCalls, h]

theorem not_singular_of_name {name : String} {args : List Expr}
    (h : name ∉ ["log", "log10", "log1p", "atanh"]) : .call name args ∉ singularCalls := by
  simp only [List.mem_cons, List.not_mem_nil, or_false, not_or] at h
  simp [singularCalls, h]

theorem regular_stmt {x : Expr} : Regular (.stmt x) ↔ Regular x := by
  have hself : .stmt x ∉ singularCalls := not_singular_of_not_call (by simp)
  constructor
  · intro h t ht hmem
    exact h t ht (by simp [subtrees, hmem])
  · intro h t ht hmem
    rcases List.mem_cons.mp hmem with rfl | hmem
    · exact hself ht
    · exact h t ht hmem

theorem hereditary_regular : Hereditary Regular where
  num v := by
    intro t ht hmem
    obtain rfl := List.mem_singleton.mp hmem
    exact not_singular_of_not_call (by simp) ht
  binary op l r := by
    constructor
    · intro h
      exact ⟨fun t ht hmem => h t ht (by simp [subtrees, hmem]),
        fun t ht hmem => h t ht (by simp [subtrees, hmem])⟩
    · rintro ⟨hl, hr⟩ t ht hmem
      rw [subtrees, List.mem_cons, List.mem_append] at hmem
      rcases hmem with rfl | hmem | hmem
      · exact not_singular_of_not_call (by simp) ht
      · exact hl t ht hmem
      · exact hr t ht hmem
  neg x := by
    constructor
    · intro h t ht hmem
      exact h t ht (by simp [subtrees, hmem])
    · intro h t ht hmem
      rcases List.mem_cons.mp hmem with rfl | hmem
      · exact not_singular_of_not_call (by simp) ht
      · exact h t ht hmem
  power_call b e := by
    simp [regular_call, not_singular_of_name]

/-! ## Results that are integers

An integer comes out of a rule only if integers went in, so a divisor that turns out
zero was made of integers. -/

theorem Multiplies.eq_zero {l r s : Expr} (h : Multiplies l r s) (hr : RedexFree r)
    (hs : s = .num 0) : l = .num 0 ∨ r = .num 0 := by
  induction h with
  | zero_left _ => exact Or.inl rfl
  | zero_right _ => exact Or.inr rfl
  | one_left _ => exact Or.inr hs
  | one_right _ => exact Or.inl hs
  | @fold a b p hp =>
    obtain rfl := Expr.num.inj hs
    rcases mul_eq_zero.mp hp.symm with ha | hb
    · rw [toInt_eq_zero_iff.mp ha]
      exact Or.inl rfl
    · rw [toInt_eq_zero_iff.mp hb]
      exact Or.inr rfl
  | @merge a b p t _ hp _ ih =>
    cases hr with
    | binary _ ht hi =>
      rcases ih ht hs with hzero | hzero
      · obtain rfl := Expr.num.inj hzero
        rcases mul_eq_zero.mp hp.symm with ha | hb
        · rw [toInt_eq_zero_iff.mp ha]
          exact Or.inl rfl
        · exact (hi.left_ne_zero (by rw [toInt_eq_zero_iff.mp hb])).elim
      · exact (hi.right_ne_zero hzero).elim
  | keep _ => cases hs

theorem combine_integer {op : Operator} {onInt : ℤ → ℤ → ℤ}
    {fold : Int64 → Int64 → Option Int64} {a c : Int64} {r : Expr}
    (hfold : ∀ a b, fold a b = word? (onInt a.toInt b.toInt))
    (h : combine op fold (.num a) r = .num c) :
    ∃ b, r = .num b ∧ c.toInt = onInt a.toInt b.toInt := by
  cases r with
  | num b =>
    simp only [combine, integers?, hfold] at h
    cases hc : word? (onInt a.toInt b.toInt) with
    | some c' =>
      simp only [hc, Expr.num.injEq] at h
      subst h
      exact ⟨b, rfl, word?_eq_some_iff.mp hc⟩
    | none => simp [hc] at h
  | _ => simp [combine, integers?, likeTerms, isInteger] at h

theorem sum_integer {a c : Int64} {r : Expr} (h : sum (.num a) r = .num c) :
    ∃ b, r = .num b ∧ c.toInt = a.toInt + b.toInt := by
  unfold sum at h
  split_ifs at h with hr ha
  · rw [isZero_iff] at hr
    obtain rfl := Expr.num.inj h
    exact ⟨0, hr, by simp⟩
  · rw [isZero_iff, Expr.num.injEq] at ha
    exact ⟨c, h, by simp [ha]⟩
  · exact combine_integer add_exact h

theorem difference_integer {a c : Int64} {r : Expr} (ha : a ≠ 0)
    (h : difference (.num a) r = .num c) : ∃ b, r = .num b ∧ c.toInt = a.toInt - b.toInt := by
  unfold difference at h
  split_ifs at h with hz hr
  · rw [isZero_iff, Expr.num.injEq] at hz
    exact (ha hz).elim
  · rw [isZero_iff] at hr
    obtain rfl := Expr.num.inj h
    exact ⟨0, hr, by simp⟩
  · exact combine_integer sub_exact h

theorem RedexFree.inert_build {b e : Expr} (form : PowerForm) (h : RedexFree (form.build b e)) :
    InertPower b e := by
  cases form with
  | node =>
    cases h with
    | binary _ _ hi => exact hi
  | call =>
    cases h with
    | call _ hpow =>
      obtain ⟨b', e', hargs, hi⟩ := hpow rfl
      cases hargs
      exact hi

theorem build_ne_num (form : PowerForm) (b e : Expr) (v : Int64) : form.build b e ≠ .num v := by
  cases form <;> simp [PowerForm.build]

theorem build_inj {form form' : PowerForm} {b e b' e' : Expr}
    (h : form.build b e = form'.build b' e') : b = b' ∧ e = e' := by
  cases form <;> cases form' <;> cases h <;> exact ⟨rfl, rfl⟩

theorem Raises.nonzero {form : PowerForm} {b e : Expr} {x : Except Fault Expr}
    (h : Raises form b e x) (hb : RedexFree b) (hz : b ≠ .num 0) :
    ∃ s, x = .ok s ∧ s ≠ .num 0 := by
  induction h with
  | zero_to_zero => exact (hz rfl).elim
  | zero_to_negative _ => exact (hz rfl).elim
  | zero_base _ _ => exact (hz rfl).elim
  | one_base _ => exact ⟨_, rfl, by decide⟩
  | zero_exponent _ => exact ⟨_, rfl, by decide⟩
  | one_exponent _ => exact ⟨_, rfl, hz⟩
  | @fold a n p _ hp =>
    refine ⟨_, rfl, fun hzero => hz ?_⟩
    obtain rfl := Expr.num.inj hzero
    rw [toInt_eq_zero_iff.mp (eq_zero_of_pow_eq_zero hp.symm)]
  | flatten inner _ _ ih =>
    exact ih (hb.of_build inner).1 (hb.inert_build inner).base_ne_zero
  | keep _ => exact ⟨_, rfl, build_ne_num form _ _ 0⟩

/-- Twice an exponent that is neither zero nor one. -/
theorem Multiplies.twice {e m : Expr} (h : Multiplies e (.num 2) m) (h0 : e ≠ .num 0)
    (h1 : e ≠ .num 1) :
    (∃ k n : Int64, e = .num k ∧ m = .num n ∧ n.toInt = k.toInt * 2) ∨ m = .mul e (.num 2) := by
  generalize hr : Expr.num 2 = r at h
  cases h with
  | zero_left _ => exact (h0 rfl).elim
  | zero_right _ => exact absurd hr (by decide)
  | one_left _ => exact (h1 rfl).elim
  | one_right _ => exact absurd hr (by decide)
  | @fold k b n hn =>
    obtain rfl := Expr.num.inj hr
    exact Or.inl ⟨k, n, rfl, rfl, hn⟩
  | merge _ _ => cases hr
  | keep _ => exact Or.inr rfl

theorem fits_of_square {x : ℤ} (h : Fits (x * x)) : Fits x := by
  obtain ⟨hl, hu⟩ := h
  constructor <;> nlinarith

theorem Raises.twice_ne_integer {form : PowerForm} {b e m : Expr} {p : Int64}
    (hs : Raises form b m (.ok (.num p))) (hi : InertPower b e) (hm : Multiplies e (.num 2) m) :
    False := by
  have hm := hm.twice hi.exponent_ne_zero hi.exponent_ne_one
  generalize hx : Except.ok (Expr.num p) = x at hs
  cases hs with
  | zero_to_zero => cases hx
  | zero_to_negative _ => cases hx
  | zero_base _ _ => exact hi.base_ne_zero rfl
  | one_base _ => exact hi.base_ne_one rfl
  | zero_exponent _ =>
    rcases hm with ⟨k, n, rfl, hn, hk⟩ | hm
    · obtain rfl := Expr.num.inj hn
      have hzero : k = 0 := toInt_eq_zero_iff.mp (by simpa using hk)
      exact hi.exponent_ne_zero (by rw [hzero])
    · cases hm
  | one_exponent _ =>
    rcases hm with ⟨k, n, rfl, hn, hk⟩ | hm
    · obtain rfl := Expr.num.inj hn
      rw [Int64.toInt_one] at hk
      omega
    · cases hm
  | @fold a n q hn hq =>
    rcases hm with ⟨k, n', rfl, hn', hk⟩ | hm
    · obtain rfl := Expr.num.inj hn'
      have hpos : 0 ≤ k.toInt := by omega
      refine hi.no_fold a k rfl rfl hpos (fits_of_square ?_)
      have htwice : n.toInt.toNat = k.toInt.toNat + k.toInt.toNat := by omega
      rw [← pow_add, ← htwice, ← hq]
      exact fits_toInt q
    · cases hm
  | flatten inner _ _ => exact hi.base_ne_power inner _ _ rfl
  | keep _ => exact build_ne_num form _ _ p (Except.ok.inj hx).symm

theorem square_integer {u : Expr} {p : Int64} (hu : RedexFree u)
    (h : power .node u (.num 2) = .ok (.num p)) : ∃ a, u = .num a ∧ p.toInt = a.toInt ^ 2 := by
  have hraises : Raises .node u (.num 2) (.ok (.num p)) := h ▸ raises_power .node u (.num 2)
  generalize htwo : Expr.num 2 = two at hraises
  generalize hx : Except.ok (Expr.num p) = x at hraises
  cases hraises with
  | zero_to_zero => cases hx
  | zero_to_negative _ => cases hx
  | zero_base _ _ =>
    cases hx
    exact ⟨0, rfl, by simp⟩
  | one_base _ =>
    cases hx
    exact ⟨1, rfl, by simp⟩
  | zero_exponent _ => exact absurd htwo (by decide)
  | one_exponent _ => exact absurd htwo (by decide)
  | @fold a n q _ hq =>
    cases hx
    obtain rfl := Expr.num.inj htwo
    exact ⟨a, rfl, hq⟩
  | flatten inner hm hs =>
    subst htwo hx
    exact (hs.twice_ne_integer (hu.inert_build inner) hm).elim
  | keep _ => exact (build_ne_num .node _ _ p (Except.ok.inj hx).symm).elim

/-! ## Trees that simplify to regular trees -/

def Tame (e : Expr) : Prop :=
  ∃ s, reduce e = .ok s ∧ Regular s

def Divisor (e : Expr) : Prop :=
  ∃ s, reduce e = .ok s ∧ Regular s ∧ s ≠ .num 0

theorem Divisor.tame {e : Expr} (h : Divisor e) : Tame e := by
  obtain ⟨s, hs, hregular, _⟩ := h
  exact ⟨s, hs, hregular⟩

theorem RedexFree.tame {e : Expr} (h : RedexFree e) (hregular : Regular e) : Tame e :=
  ⟨e, reduce_of_redexFree h, hregular⟩

theorem RedexFree.divisor {e : Expr} (h : RedexFree e) (hregular : Regular e) (hz : e ≠ .num 0) :
    Divisor e :=
  ⟨e, reduce_of_redexFree h, hregular, hz⟩

theorem Tame.num (v : Int64) : Tame (.num v) :=
  (RedexFree.num v).tame (hereditary_regular.num v)

section
variable {l r u : Expr}

theorem Tame.binary {op : Operator} (hl : Tame l) (hr : Tame r)
    (h : ∀ l' r', ∃ s, applyRule op l' r' = .ok s) : Tame (.binary op l r) := by
  obtain ⟨l', hl', hregl⟩ := hl
  obtain ⟨r', hr', hregr⟩ := hr
  obtain ⟨s, hs⟩ := h l' r'
  have hsettles := applyRule_settles op hereditary_regular hregl hregr
  rw [hs] at hsettles
  exact ⟨s, reduce_binary.mpr ⟨l', hl', r', hr', hs⟩, hsettles.of_ok⟩

theorem Tame.add (hl : Tame l) (hr : Tame r) : Tame (.add l r) :=
  hl.binary hr fun _ _ => ⟨_, rfl⟩

theorem Tame.sub (hl : Tame l) (hr : Tame r) : Tame (.sub l r) :=
  hl.binary hr fun _ _ => ⟨_, rfl⟩

theorem Tame.mul (hl : Tame l) (hr : Tame r) : Tame (.mul l r) :=
  hl.binary hr fun _ _ => ⟨_, rfl⟩

theorem Tame.neg (hu : Tame u) : Tame (.neg u) := by
  obtain ⟨s, hs, hregular⟩ := hu
  exact ⟨_, reduce_neg.mpr ⟨s, hs, rfl⟩,
    (negates_negation s).hereditary hereditary_regular hregular⟩

theorem Tame.stmt (hu : Tame u) : Tame (.stmt u) := by
  obtain ⟨s, hs, hregular⟩ := hu
  exact ⟨_, reduce_stmt.mpr ⟨s, hs, rfl⟩, regular_stmt.mpr hregular⟩

theorem Tame.div (hl : Tame l) (hr : Divisor r) : Tame (.div l r) := by
  obtain ⟨l', hl', hregl⟩ := hl
  obtain ⟨r', hr', hregr, hz⟩ := hr
  have hsettles := (divides_quotient l' r').settles hereditary_regular hregl hregr
  cases hq : quotient l' r' with
  | ok s =>
    rw [hq] at hsettles
    exact ⟨s, reduce_binary.mpr ⟨l', hl', r', hr', hq⟩, hsettles.of_ok⟩
  | error f =>
    have hdivides := divides_quotient l' r'
    rw [hq] at hdivides
    cases hdivides with
    | zero_divisor _ => exact (hz rfl).elim

theorem Divisor.reciprocal (hu : Divisor u) : Tame u.reciprocal :=
  (Tame.num 1).div hu

theorem Tame.apply (f : Unary) (hf : f.name ∉ ["log", "log10", "log1p", "atanh"]) (hu : Tame u) :
    Divisor (.call f.name [u]) := by
  obtain ⟨s, hs, hregular⟩ := hu
  refine ⟨.call f.name [s], ?_, regular_call.mpr ⟨not_singular_of_name hf, by simpa⟩, by simp⟩
  rw [reduce_unary, hs]
  rfl

theorem reduce_build (form : PowerForm) (b e : Expr) :
    reduce (form.build b e) =
      (reduce b >>= fun b' => reduce e >>= fun e' => power form b' e') := by
  cases form with
  | node => simp only [PowerForm.build, reduce, applyRule]
  | call => exact reduce_power_call b e

theorem Divisor.build (form : PowerForm) {b e : Expr} (hb : RedexFree b) (hregular : Regular b)
    (hz : b ≠ .num 0) (he : Tame e) : Divisor (form.build b e) := by
  obtain ⟨e', he', hrege⟩ := he
  obtain ⟨s, hs, hne⟩ := (raises_power form b e').nonzero hb hz
  have hsettles := power_settles form hereditary_regular hregular hrege
  rw [hs] at hsettles
  refine ⟨s, ?_, hsettles.of_ok, hne⟩
  rw [reduce_build, reduce_of_redexFree hb, he']
  exact hs

theorem Divisor.square (hu : RedexFree u) (hregular : Regular u) (hz : u ≠ .num 0) :
    Divisor u.square :=
  .build .node hu hregular hz (.num 2)

/-- Zero may be squared, too. -/
theorem Tame.square (hu : RedexFree u) (hregular : Regular u) : Tame u.square := by
  by_cases hz : u = .num 0
  · subst hz
    exact ⟨.num 0, rfl, hereditary_regular.num 0⟩
  · exact (Divisor.square hu hregular hz).tame

theorem reduce_square (hu : RedexFree u) : reduce u.square = power .node u (.num 2) := by
  have h := reduce_build .node u (.num 2)
  rw [reduce_of_redexFree hu] at h
  exact h

/-! ## The divisors of the outer factors -/

theorem Divisor.one_add (hu : Tame u) (h : ∀ b, reduce u = .ok (.num b) → b.toInt ≠ -1) :
    Divisor (.add (.num 1) u) := by
  obtain ⟨s, hs, hregular⟩ := (Tame.num 1).add hu
  obtain ⟨one, hone, u', hu', hsum⟩ := reduce_binary.mp hs
  obtain rfl : Expr.num 1 = one := Except.ok.inj hone
  refine ⟨s, hs, hregular, fun hz => ?_⟩
  subst hz
  obtain ⟨b, rfl, hb⟩ := sum_integer (Except.ok.inj hsum)
  rw [Int64.toInt_zero, Int64.toInt_one] at hb
  exact h b hu' (by omega)

theorem Divisor.one_sub (hu : Tame u) (h : ∀ b, reduce u = .ok (.num b) → b.toInt ≠ 1) :
    Divisor (.sub (.num 1) u) := by
  obtain ⟨s, hs, hregular⟩ := (Tame.num 1).sub hu
  obtain ⟨one, hone, u', hu', hdiff⟩ := reduce_binary.mp hs
  obtain rfl : Expr.num 1 = one := Except.ok.inj hone
  refine ⟨s, hs, hregular, fun hz => ?_⟩
  subst hz
  obtain ⟨b, rfl, hb⟩ := difference_integer (by decide) (Except.ok.inj hdiff)
  rw [Int64.toInt_zero, Int64.toInt_one] at hb
  exact h b hu' (by omega)

theorem Divisor.mul (hl : RedexFree l) (hr : RedexFree r) (hregl : Regular l) (hregr : Regular r)
    (hzl : l ≠ .num 0) (hzr : r ≠ .num 0) : Divisor (.mul l r) := by
  obtain ⟨s, hs, hregular⟩ := (hl.tame hregl).mul (hr.tame hregr)
  obtain ⟨l', hl', r', hr', hproduct⟩ := reduce_binary.mp hs
  obtain rfl : l = l' := Except.ok.inj ((reduce_of_redexFree hl).symm.trans hl')
  obtain rfl : r = r' := Except.ok.inj ((reduce_of_redexFree hr).symm.trans hr')
  refine ⟨s, hs, hregular, fun hz => ?_⟩
  subst hz
  rcases (multiplies_product l r).eq_zero hr (Except.ok.inj hproduct) with h | h
  · exact hzl h
  · exact hzr h

theorem redexFree_apply (f : Unary) (hu : RedexFree u) : RedexFree (.call f.name [u]) :=
  .call (by simpa) fun hpow => (f.name_ne_pow hpow).elim

theorem outer_tame (f : Unary) (hu : RedexFree u) (hcall : Regular (.call f.name [u])) :
    Tame (f.outer u) := by
  obtain ⟨hsingular, hargs⟩ := regular_call.mp hcall
  have hregular : Regular u := hargs u (by simp)
  have hself : Tame u := hu.tame hregular
  have hsquare : Tame u.square := .square hu hregular
  have hroot (x : Expr) (hx : Tame x) : Tame (Expr.reciprocal (.call "sqrt" [x])) :=
    (hx.apply .sqrt (by decide)).reciprocal
  have hsecant (g : Unary) (hg : g.name ∉ ["log", "log10", "log1p", "atanh"]) :
      Tame (Expr.square (.call g.name [u])).reciprocal :=
    (Divisor.square (redexFree_apply g hu)
      (regular_call.mpr ⟨not_singular_of_name hg, hargs⟩) (by simp)).reciprocal
  cases f with
  | sin => exact (hself.apply .cos (by decide)).tame
  | cos => exact (hself.apply .sin (by decide)).tame.neg
  | tan => exact hsecant .cos (by decide)
  | asin => exact hroot _ ((Tame.num 1).sub hsquare)
  | acos => exact (hroot _ ((Tame.num 1).sub hsquare)).neg
  | atan =>
    refine (Divisor.one_add hsquare fun p hp hone => ?_).reciprocal
    rw [reduce_square hu] at hp
    obtain ⟨a, _, ha⟩ := square_integer hu hp
    have hpos := sq_nonneg a.toInt
    omega
  | sinh => exact (hself.apply .cosh (by decide)).tame
  | cosh => exact (hself.apply .sinh (by decide)).tame
  | tanh => exact hsecant .cosh (by decide)
  | asinh => exact hroot _ (hsquare.add (.num 1))
  | acosh => exact hroot _ (hsquare.sub (.num 1))
  | atanh =>
    refine (Divisor.one_sub hsquare fun p hp hone => ?_).reciprocal
    rw [reduce_square hu] at hp
    obtain ⟨a, rfl, ha⟩ := square_integer hu hp
    rcases sq_eq_one_iff.mp (ha.symm.trans hone) with h | h
    · obtain rfl : a = 1 := Int64.toInt.inj h
      exact hsingular (by decide)
    · obtain rfl : a = -1 := Int64.toInt.inj h
      exact hsingular (by decide)
  | exp => exact (hself.apply .exp (by decide)).tame
  | expm1 => exact (hself.apply .exp (by decide)).tame
  | log =>
    refine (hu.divisor hregular fun hz => hsingular ?_).reciprocal
    rw [hz]
    decide
  | log10 =>
    refine (Divisor.mul hu (redexFree_apply .log (.num 10)) hregular ?_ (fun hz => hsingular ?_)
      (by simp)).reciprocal
    · decide
    · rw [hz]
      decide
  | log1p =>
    refine (Divisor.one_add hself fun b hb hone => hsingular ?_).reciprocal
    rw [reduce_of_redexFree hu] at hb
    obtain rfl : u = .num b := Except.ok.inj hb
    obtain rfl : b = -1 := Int64.toInt.inj hone
    decide
  | sqrt =>
    exact (Divisor.mul (.num 2) (redexFree_apply .sqrt hu) (hereditary_regular.num 2) hcall
      (by decide) (by simp)).reciprocal

end

/-! ## One pass -/

theorem powerRule_tame (form : PowerForm) (v : String) {b e db de : Expr} (hb : RedexFree b)
    (he : RedexFree e) (hregb : Regular b) (hrege : Regular e) (hz : b ≠ .num 0) (hdb : Tame db)
    (hde : Tame de) : Tame (powerRule form v b e db de) := by
  have hexp : Tame e := he.tame hrege
  have hlower : Tame (form.build b (.sub e (.num 1))) :=
    (Divisor.build form hb hregb hz (hexp.sub (.num 1))).tame
  have hplain : Tame (.mul (.mul e (form.build b (.sub e (.num 1)))) db) :=
    (hexp.mul hlower).mul hdb
  have hlog : Tame (.call "log" [b]) := by
    refine (redexFree_apply .log hb).tame (regular_call.mpr ⟨?_, by simpa⟩)
    simp [singularCalls, Unary.name, hz]
  unfold powerRule
  split_ifs
  · exact hplain.add (((Divisor.build form hb hregb hz hexp).tame.mul hlog).mul hde)
  · exact hplain

theorem operatorRule_tame (op : Operator) (v : String) {l r dl dr : Expr}
    (h : RedexFree (.binary op l r)) (hregl : Regular l) (hregr : Regular r) (hdl : Tame dl)
    (hdr : Tame dr) : Tame (operatorRule op v l r dl dr) := by
  cases h with
  | binary hl hr hi =>
    have hleft : Tame l := hl.tame hregl
    have hright : Tame r := hr.tame hregr
    cases op with
    | add => exact hdl.add hdr
    | sub => exact hdl.sub hdr
    | mul => exact (hdl.mul hright).add (hleft.mul hdr)
    | div =>
      exact ((hdl.mul hright).sub (hleft.mul hdr)).div (.square hr hregr hi.right_ne_zero)
    | pow => exact powerRule_tame .node v hl hr hregl hregr hi.base_ne_zero hdl hdr

theorem derive_tame {v : String} {e d : Expr} (hfree : RedexFree e) (hregular : Regular e)
    (hd : derive v e = .ok d) : Tame d := by
  induction e generalizing d with
  | missing => cases hd
  | num _ => cases hd; exact .num 0
  | sym _ => cases hd; exact .num _
  | binary op l r ihl ihr =>
    obtain ⟨dl, hdl, dr, hdr, rfl⟩ := derive_binary.mp hd
    obtain ⟨hregl, hregr⟩ := (hereditary_regular.binary op _ _).mp hregular
    exact operatorRule_tame op v hfree hregl hregr (ihl hfree.left hregl hdl)
      (ihr hfree.right hregr hdr)
  | neg x ih =>
    obtain ⟨dx, hdx, rfl⟩ := derive_neg.mp hd
    exact (ih hfree.operand ((hereditary_regular.neg _).mp hregular) hdx).neg
  | call name args ih =>
    obtain ⟨rfl, rfl, rfl⟩ | ⟨f, u, du, rfl, rfl, hdu, rfl⟩ | ⟨b, e, db, de, rfl, rfl, hdb, hde, rfl⟩ :=
      derive_call hd
    · exact .num 0
    · have hu : RedexFree u := by
        cases hfree with
        | call hargs _ => exact hargs u (by simp)
      have hregu : Regular u := (regular_call.mp hregular).2 u (by simp)
      exact (outer_tame f hu hregular).mul (ih u (by simp) hu hregu hdu)
    · obtain ⟨hb, he⟩ := hfree.of_build .call
      obtain ⟨hregb, hrege⟩ := (hereditary_regular.power_call _ _).mp hregular
      exact powerRule_tame .call v hb he hregb hrege (hfree.inert_build .call).base_ne_zero
        (ih b (by simp) hb hregb hdb) (ih e (by simp) he hrege hde)
  | stmt x ih =>
    obtain ⟨dx, hdx, rfl⟩ := derive_stmt.mp hd
    have hx : RedexFree x := by
      cases hfree with
      | stmt hx => exact hx
    exact (ih hx (regular_stmt.mp hregular) hdx).stmt

/-- What every pass keeps. Names of variables do not matter here. -/
structure Durable (v : String) (e : Expr) : Prop where
  derivable : Derivable v e
  redexFree : RedexFree e
  regular : Regular e

theorem durable_of_tame {v : String} {e d : Expr} (hd : derive v e = .ok d) (h : Tame d) :
    ∃ s, differentiateSimplify v e = .ok s ∧ Durable v s := by
  obtain ⟨s, hs, hregular⟩ := h
  have hderivable : Derivable v s :=
    (inherited_derivable v).reduce ((inherited_derivable v).derive ⟨d, hd⟩ hd) hs
  exact ⟨s, differentiateSimplify_eq_ok.mpr ⟨d, hd, hs⟩, hderivable, reduce_redexFree hs, hregular⟩

theorem Durable.pass {v : String} {e : Expr} (h : Durable v e) :
    ∃ s, differentiateSimplify v e = .ok s ∧ Durable v s := by
  obtain ⟨d, hd⟩ := h.derivable
  exact durable_of_tame hd (derive_tame h.redexFree h.regular hd)

theorem Durable.passes {v : String} {e : Expr} (h : Durable v e) (n done : Nat) :
    ∃ d, passes v done n e = .ok d ∧ Durable v d := by
  induction n generalizing e done with
  | zero => exact ⟨e, rfl, h⟩
  | succ n ih =>
    obtain ⟨s, hs, hdurable⟩ := h.pass
    rw [SymbolicCalculus.passes, hs]
    exact ih hdurable (done + 1)

/-- What every pass keeps of a valid tree. -/
structure Steady (e : Expr) : Prop where
  wellFormed : WellFormed e
  redexFree : RedexFree e
  regular : Regular e

theorem Steady.passes {e : Expr} (h : Steady e) (v : String) (n done : Nat) :
    ∃ d, passes v done n e = .ok d ∧ Steady d := by
  have hdurable : Durable v e := ⟨h.wellFormed.derive_defined v, h.redexFree, h.regular⟩
  obtain ⟨d, hd, hfinal⟩ := hdurable.passes n done
  have hvalid := passes_endsValid v n h.wellFormed done
  rw [hd] at hvalid
  exact ⟨d, hd, validate_eq_ok_iff.mp hvalid, hfinal.redexFree, hfinal.regular⟩

end Expr

/-- Every derivative of a valid and simplified tree without singular calls exists, and is
again valid, simplified and without singular calls. -/
theorem differentiateTimes_succeeds (e : Expr) (hvalid : validate e = .ok ())
    (hsimple : simplify e = .ok e) (hregular : e.Regular) (v : String) (n : Int) (hn : 0 ≤ n) :
    ∃ d, differentiateTimes v n e = .ok d ∧
      validate d = .ok () ∧ simplify d = .ok d ∧ d.Regular := by
  have hwell := validate_eq_ok_iff.mp hvalid
  have hsteady : e.Steady := ⟨hwell, Expr.reduce_redexFree (simplify_eq_ok.mp hsimple), hregular⟩
  obtain ⟨d, hd, hfinal⟩ := hsteady.passes v n.toNat 0
  refine ⟨d, ?_, validate_eq_ok_iff.mpr hfinal.wellFormed,
    simplify_eq_ok.mpr (Expr.reduce_of_redexFree hfinal.redexFree), hfinal.regular⟩
  rw [differentiateTimes, if_neg (by omega), if_neg (by simp [hwell.isMissing_eq_false])]
  exact hd

/-- A power with the variable in base and exponent, over an inverse function whose divisor
is a difference: `x^x * atanh(2)` to the order 40. -/
theorem differentiateTimes_succeeds_self_power :
    ∃ d, differentiateTimes "x" 40
        (.mul (.pow (.sym "x") (.sym "x")) (.call "atanh" [.num 2])) = .ok d ∧
      validate d = .ok () ∧ simplify d = .ok d ∧ d.Regular :=
  differentiateTimes_succeeds (.mul (.pow (.sym "x") (.sym "x")) (.call "atanh" [.num 2])) rfl rfl
    (by decide) "x" 40 (by decide)

/-- Without the condition on calls the first derivative may already have no value. -/
example : Error.outcome (differentiateTimes "x" 1 (.call "atanh" [.num 1])) =
    .error (some .divisionByZero) := rfl

end SymbolicCalculus
