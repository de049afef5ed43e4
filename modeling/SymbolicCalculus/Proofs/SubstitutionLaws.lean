import SymbolicCalculus.Proofs.FreeSymbols

/-!
# Laws of substitution

Replacing a variable that does not occur changes nothing. Two substitutions can change
places: what the second one puts in goes through to the value of the first, provided that
the variable of the first does not come back with it. Differentiation changes places with a
substitution if the value put in does not move with the variable of the derivative; the
trees agree node by node, since every rule copies its operands as they are.
-/

set_option autoImplicit false

namespace SymbolicCalculus

namespace Expr

/-! ## Two substitutions -/

theorem subst_sym_self (v : String) (w : Expr) : subst v w (.sym v) = w :=
  if_pos rfl

theorem subst_sym_of_ne {name v : String} (h : name ≠ v) (w : Expr) :
    subst v w (.sym name) = .sym name :=
  if_neg h

theorem subst_of_not_occurs {v : String} {w e : Expr} (h : ¬ Occurs v e) : subst v w e = e := by
  induction e with
  | missing => rfl
  | num _ => rfl
  | sym name =>
    have hname : name ≠ v := fun heq => h (occurs_sym.mpr heq.symm)
    exact subst_sym_of_ne hname w
  | binary op l r ihl ihr =>
    rw [occurs_binary, not_or] at h
    rw [subst, ihl h.1, ihr h.2]
  | neg x ih =>
    rw [occurs_neg] at h
    rw [subst, ih h]
  | call name args ih =>
    have hargs : ∀ a ∈ args, subst v w a = a :=
      fun a ha => ih a ha fun hv => h (occurs_call.mpr ⟨a, ha, hv⟩)
    rw [subst, substAll_eq_map, List.map_congr_left hargs, List.map_id']
  | stmt x ih =>
    rw [occurs_stmt] at h
    rw [subst, ih h]

/-- The second substitution goes through the value of the first. At a leaf `y` the first
substitution leaves `y` alone, and on the other side it comes second and has to leave `b`
alone, which is why its variable must not occur there. -/
theorem subst_subst {x y : String} {a b e : Expr} (hne : x ≠ y) (hb : ¬ Occurs x b) :
    subst y b (subst x a e) = subst x (subst y b a) (subst y b e) := by
  induction e with
  | missing => rfl
  | num _ => rfl
  | sym name =>
    by_cases hx : name = x
    · subst hx
      rw [subst_sym_self, subst_sym_of_ne hne, subst_sym_self]
    · by_cases hy : name = y
      · subst hy
        rw [subst_sym_of_ne hx, subst_sym_self, subst_of_not_occurs hb]
      · rw [subst_sym_of_ne hx, subst_sym_of_ne hy, subst_sym_of_ne hx]
  | binary op l r ihl ihr => simp only [subst, ihl, ihr]
  | neg u ih => simp only [subst, ih]
  | call name args ih =>
    simp only [subst, substAll_eq_map, List.map_map]
    exact congrArg (call name) (List.map_congr_left ih)
  | stmt u ih => simp only [subst, ih]

/-! ## Substitution and differentiation -/

section
variable {x y : String} {c : Expr}

theorem subst_build (form : PowerForm) (b e : Expr) :
    subst y c (form.build b e) = form.build (subst y c b) (subst y c e) := by
  cases form with
  | node => rfl
  | call => rfl

theorem subst_outer (f : Unary) (u : Expr) : subst y c (f.outer u) = f.outer (subst y c u) := by
  cases f <;> rfl

theorem dependsOn_subst (hne : x ≠ y) (hc : ¬ Occurs x c) (e : Expr) :
    dependsOn x (subst y c e) = dependsOn x e := by
  have hiff : Occurs x (subst y c e) ↔ Occurs x e := by
    rw [occurs_subst]
    simp [hne, hc]
  rw [Bool.eq_iff_iff, dependsOn_iff, dependsOn_iff, hiff]

/-- The choice between the two forms of the power rule is the same before and after. -/
theorem subst_powerRule (form : PowerForm) (hne : x ≠ y) (hc : ¬ Occurs x c) (b e db de : Expr) :
    subst y c (powerRule form x b e db de) =
      powerRule form x (subst y c b) (subst y c e) (subst y c db) (subst y c de) := by
  unfold powerRule
  rw [dependsOn_subst hne hc]
  split_ifs
  · simp only [subst, substAll, subst_build]
  · simp only [subst, subst_build]

theorem subst_operatorRule (op : Operator) (hne : x ≠ y) (hc : ¬ Occurs x c)
    (l r dl dr : Expr) :
    subst y c (operatorRule op x l r dl dr) =
      operatorRule op x (subst y c l) (subst y c r) (subst y c dl) (subst y c dr) := by
  cases op with
  | pow => exact subst_powerRule .node hne hc l r dl dr
  | _ => rfl

/-- Differentiation of a tree in which a variable is fixed. The derivative of the value has
to be zero as a tree, since the derivative of the variable it replaces is. -/
theorem derive_subst {e d : Expr} (hne : x ≠ y) (hc : ¬ Occurs x c)
    (hdc : derive x c = .ok (.num 0)) (hd : derive x e = .ok d) :
    derive x (subst y c e) = .ok (subst y c d) := by
  induction e generalizing d with
  | missing => cases hd
  | num _ => cases hd; rfl
  | sym name =>
    cases hd
    by_cases hname : name = y
    · subst hname
      rw [subst_sym_self, hdc, if_neg hne.symm]
      rfl
    · rw [subst_sym_of_ne hname]
      rfl
  | binary op l r ihl ihr =>
    obtain ⟨dl, hdl, dr, hdr, rfl⟩ := derive_binary.mp hd
    rw [subst_operatorRule op hne hc]
    exact derive_binary.mpr ⟨_, ihl hdl, _, ihr hdr, rfl⟩
  | neg u ih =>
    obtain ⟨du, hdu, rfl⟩ := derive_neg.mp hd
    exact derive_neg.mpr ⟨_, ih hdu, rfl⟩
  | call name args ih =>
    obtain ⟨rfl, rfl, rfl⟩ | ⟨f, u, du, rfl, rfl, hdu, rfl⟩ |
      ⟨b, e, db, de, rfl, rfl, hdb, hde, rfl⟩ := derive_call hd
    · rfl
    · have houter : subst y c (.mul (f.outer u) du) =
          .mul (f.outer (subst y c u)) (subst y c du) := by
        rw [subst, subst_outer]
      rw [houter]
      exact derive_unary.mpr ⟨_, ih u (by simp) hdu, rfl⟩
    · rw [subst_powerRule .call hne hc]
      exact derive_pow.mpr ⟨_, ih b (by simp) hdb, _, ih e (by simp) hde, rfl⟩
  | stmt u ih =>
    obtain ⟨du, hdu, rfl⟩ := derive_stmt.mp hd
    exact derive_stmt.mpr ⟨_, ih hdu, rfl⟩

end

end Expr

/-- Two substitutions into valid trees change places: to put `a` for `x` and then `b` for `y`
is to put `b` for `y` and then, for `x`, the tree `a` in which `y` was replaced as well. All
five of them succeed. -/
theorem substitute_substitute (e a b : Expr) (x y : String) (he : validate e = .ok ())
    (ha : validate a = .ok ()) (hb : validate b = .ok ()) (hne : x ≠ y)
    (hx : x ∉ b.freeSymbols) :
    ∃ s t a' r, substitute x a e = .ok s ∧ substitute y b e = .ok t ∧
      substitute y b a = .ok a' ∧ substitute y b s = .ok r ∧ substitute x a' t = .ok r := by
  rw [validate_eq_ok_iff] at he ha hb
  have hs : (Expr.subst x a e).WellFormed := Expr.subst_wellFormed he ha
  have ht : (Expr.subst y b e).WellFormed := Expr.subst_wellFormed he hb
  have ha' : (Expr.subst y b a).WellFormed := Expr.subst_wellFormed ha hb
  have hoccurs : ¬ Expr.Occurs x b := fun h => hx (Expr.mem_freeSymbols.mpr h)
  refine ⟨_, _, _, _, substitute_of_wellFormed x he ha, substitute_of_wellFormed y he hb,
    substitute_of_wellFormed y ha hb, substitute_of_wellFormed y hs hb, ?_⟩
  rw [substitute_of_wellFormed x ht ha', Expr.subst_subst hne hoccurs]

/-- `x^y + log(x)` with `y*z` for `x` and `2/z` for `y`: the value for `x` contains `y`. -/
theorem substitute_substitute_power :
    let e : Expr := .add (.pow (.sym "x") (.sym "y")) (.call "log" [.sym "x"])
    let a : Expr := .mul (.sym "y") (.sym "z")
    let b : Expr := .div (.num 2) (.sym "z")
    let a' : Expr := .mul b (.sym "z")
    validate e = .ok () ∧ validate a = .ok () ∧ validate b = .ok () ∧ "x" ∉ b.freeSymbols ∧
      ∃ s t, substitute "x" a e = .ok s ∧ substitute "y" b e = .ok t ∧
        substitute "y" b s = .ok (.add (.pow a' b) (.call "log" [a'])) ∧
        substitute "x" a' t = .ok (.add (.pow a' b) (.call "log" [a'])) := by
  intro e a b a'
  have hx : "x" ∉ b.freeSymbols := by decide
  obtain ⟨s, t, u, r, hs, ht, hu, hr, hr'⟩ :=
    substitute_substitute e a b "x" "y" rfl rfl rfl (by decide) hx
  cases hs
  cases hu
  cases hr
  exact ⟨rfl, rfl, rfl, hx, _, t, rfl, ht, rfl, hr'⟩

/-- Differentiation in `x` changes places with fixing another variable at an integer or at a
variable other than `x`: both ways succeed on a valid tree and lead to the same tree. -/
theorem differentiate_substitute (e c : Expr) (x y : String) (he : validate e = .ok ())
    (hne : x ≠ y) (hc : (∃ n, c = .num n) ∨ ∃ z, z ≠ "" ∧ z ≠ x ∧ c = .sym z) :
    ∃ s d r, substitute y c e = .ok s ∧ differentiate x e = .ok d ∧
      differentiate x s = .ok r ∧ substitute y c d = .ok r := by
  rw [validate_eq_ok_iff] at he
  obtain ⟨hvalue, hoccurs, hdc⟩ :
      c.WellFormed ∧ ¬ Expr.Occurs x c ∧ c.derive x = .ok (.num 0) := by
    rcases hc with ⟨n, rfl⟩ | ⟨z, hz, hzx, rfl⟩
    · exact ⟨.num n, Expr.not_occurs_num, rfl⟩
    · refine ⟨.sym hz, fun h => hzx (Expr.occurs_sym.mp h).symm, ?_⟩
      rw [Expr.derive, if_neg hzx]
  obtain ⟨d, hd⟩ := he.derive_defined x
  have hform : d.WellFormed := Expr.derive_wellFormed he hd
  refine ⟨_, d, _, substitute_of_wellFormed y he hvalue, differentiate_eq_ok.mpr hd, ?_,
    substitute_of_wellFormed y hform hvalue⟩
  exact differentiate_eq_ok.mpr (Expr.derive_subst hne hoccurs hdc hd)

/-- `pow(x, y) + y` with `z` for `y`: the exponent does not move with `x`, so that the plain
power rule is chosen both before and after. -/
theorem differentiate_substitute_power :
    let e : Expr := .add (.call "pow" [.sym "x", .sym "y"]) (.sym "y")
    let r : Expr := .add (.mul (.mul (.sym "z")
      (.call "pow" [.sym "x", .sub (.sym "z") (.num 1)])) (.num 1)) (.num 0)
    validate e = .ok () ∧
      ∃ s d, substitute "y" (.sym "z") e = .ok s ∧ differentiate "x" e = .ok d ∧
        differentiate "x" s = .ok r ∧ substitute "y" (.sym "z") d = .ok r := by
  intro e r
  obtain ⟨s, d, r', hs, hd, hr, hr'⟩ :=
    differentiate_substitute e (.sym "z") "x" "y" rfl (by decide)
      (Or.inr ⟨"z", by decide, by decide, rfl⟩)
  cases hd
  cases hr'
  exact ⟨rfl, s, _, hs, rfl, hr, rfl⟩

end SymbolicCalculus
