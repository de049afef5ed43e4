import SymbolicCalculus.Derivative
import SymbolicCalculus.Proofs.Rules
import SymbolicCalculus.Proofs.WellFormed

/-!
# What differentiation does at each node

The derivative of a node in terms of the derivatives of its children. Nothing is
assumed about the children: a missing one has no derivative, so the test for missing
arguments never decides.
-/

set_option autoImplicit false

namespace SymbolicCalculus

namespace Expr

variable {v : String}

theorem derive_binary {op : Operator} {l r d : Expr} :
    derive v (.binary op l r) = .ok d ↔
      ∃ dl, derive v l = .ok dl ∧ ∃ dr, derive v r = .ok dr ∧ operatorRule op v l r dl dr = d := by
  refine bind_eq_ok.trans ?_
  simp only [bind_eq_ok, Except.ok.injEq]

theorem derive_neg {x d : Expr} :
    derive v (.neg x) = .ok d ↔ ∃ dx, derive v x = .ok dx ∧ .neg dx = d := by
  refine bind_eq_ok.trans ?_
  simp only [Except.ok.injEq]

theorem derive_stmt {x d : Expr} :
    derive v (.stmt x) = .ok d ↔ ∃ dx, derive v x = .ok dx ∧ .stmt dx = d := by
  refine bind_eq_ok.trans ?_
  simp only [Except.ok.injEq]

theorem derive_pi {d : Expr} : derive v (.call "pi" []) = .ok d ↔ .num 0 = d := by
  have h : derive v (.call "pi" []) = .ok (.num 0) := rfl
  rw [h, Except.ok.injEq]

theorem isMissing_of_derive {e d : Expr} (h : derive v e = .ok d) : e.isMissing = false := by
  cases e with
  | missing => cases h
  | _ => rfl

theorem derive_unary {f : Unary} {u d : Expr} :
    derive v (.call f.name [u]) = .ok d ↔
      ∃ du, derive v u = .ok du ∧ .mul (f.outer u) du = d := by
  refine bind_eq_ok.trans ?_
  have heach : deriveEach v [u] = [(u, derive v u)] := rfl
  simp only [heach, resolveGiven_eq_ok, resolve_unary]
  constructor
  · rintro ⟨_, ⟨⟨⟩, _⟩, h⟩
    obtain ⟨du, hdu, hd⟩ := bind_eq_ok.mp h
    exact ⟨du, hdu, Except.ok.inj hd⟩
  · rintro ⟨du, hdu, rfl⟩
    have hgiven : ∀ a ∈ [u], a.isMissing = false := by
      simpa using isMissing_of_derive hdu
    exact ⟨_, ⟨rfl, hgiven⟩, bind_eq_ok.mpr ⟨du, hdu, rfl⟩⟩

theorem derive_pow {b e d : Expr} :
    derive v (.call "pow" [b, e]) = .ok d ↔
      ∃ db, derive v b = .ok db ∧ ∃ de, derive v e = .ok de ∧ powerRule .call v b e db de = d := by
  refine bind_eq_ok.trans ?_
  have heach : deriveEach v [b, e] = [(b, derive v b), (e, derive v e)] := rfl
  simp only [heach, resolveGiven_eq_ok, resolve_pow]
  constructor
  · rintro ⟨_, ⟨⟨⟩, _⟩, h⟩
    obtain ⟨db, hdb, h⟩ := bind_eq_ok.mp h
    obtain ⟨de, hde, hd⟩ := bind_eq_ok.mp h
    exact ⟨db, hdb, de, hde, Except.ok.inj hd⟩
  · rintro ⟨db, hdb, de, hde, rfl⟩
    have hgiven : ∀ a ∈ [b, e], a.isMissing = false := by
      simp [isMissing_of_derive hdb, isMissing_of_derive hde]
    exact ⟨_, ⟨rfl, hgiven⟩,
      bind_eq_ok.mpr ⟨db, hdb, bind_eq_ok.mpr ⟨de, hde, rfl⟩⟩⟩

theorem derive_build (form : PowerForm) {b e d : Expr} :
    derive v (form.build b e) = .ok d ↔
      ∃ db, derive v b = .ok db ∧ ∃ de, derive v e = .ok de ∧ powerRule form v b e db de = d := by
  cases form with
  | node => exact derive_binary
  | call => exact derive_pow

theorem deriveEach_eq_map (args : List Expr) :
    deriveEach v args = args.map fun a => (a, derive v a) := by
  induction args with
  | nil => rfl
  | cons a as ih => rw [deriveEach, ih, List.map_cons]

theorem derive_call {name : String} {args : List Expr} {d : Expr}
    (h : derive v (.call name args) = .ok d) :
    (name = "pi" ∧ args = [] ∧ .num 0 = d) ∨
      (∃ (f : Unary) (u du : Expr), name = f.name ∧ args = [u] ∧ derive v u = .ok du ∧
        .mul (f.outer u) du = d) ∨
      (∃ b e db de : Expr, name = "pow" ∧ args = [b, e] ∧ derive v b = .ok db ∧
        derive v e = .ok de ∧ powerRule .call v b e db de = d) := by
  have hcall := h
  simp only [derive, bind_eq_ok, resolveGiven_eq_ok, deriveEach_eq_map] at hcall
  obtain ⟨application, ⟨hresolve, _⟩, _⟩ := hcall
  obtain ⟨rfl, hargs⟩ | ⟨f, p, rfl, hargs⟩ | ⟨p, q, rfl, hargs⟩ := resolve_eq_ok hresolve
  · obtain rfl := List.map_eq_nil_iff.mp hargs
    exact Or.inl ⟨rfl, rfl, derive_pi.mp h⟩
  · obtain ⟨u, rfl, _⟩ := List.map_eq_singleton_iff.mp hargs
    obtain ⟨du, hdu, hd⟩ := derive_unary.mp h
    exact Or.inr (Or.inl ⟨f, u, du, rfl, rfl, hdu, hd⟩)
  · obtain ⟨b, rest, rfl, _, hrest⟩ := List.map_eq_cons_iff.mp hargs
    obtain ⟨e, rfl, _⟩ := List.map_eq_singleton_iff.mp hrest
    obtain ⟨db, hdb, de, hde, hd⟩ := derive_pow.mp h
    exact Or.inr (Or.inr ⟨b, e, db, de, rfl, rfl, hdb, hde, hd⟩)

end Expr

theorem differentiate_eq_ok {v : String} {e d : Expr} :
    differentiate v e = .ok d ↔ e.derive v = .ok d :=
  mapError_eq_ok

theorem differentiateSimplify_eq_ok {v : String} {e s : Expr} :
    differentiateSimplify v e = .ok s ↔ ∃ d, e.derive v = .ok d ∧ d.reduce = .ok s := by
  unfold differentiateSimplify
  simp only [bind_eq_ok, differentiate_eq_ok, simplify_eq_ok]

end SymbolicCalculus
