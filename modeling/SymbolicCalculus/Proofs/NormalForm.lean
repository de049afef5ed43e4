import SymbolicCalculus.Proofs.Rules

/-!
# Normal forms

A tree is free of redexes when nothing is missing in it, every power call has its
two operands and no local rule applies at any node. Every local rule takes
redex-free operands to a redex-free result, so simplification yields exactly the
redex-free trees and leaves them alone.
-/

set_option autoImplicit false

namespace SymbolicCalculus

namespace Expr

inductive RedexFree : Expr → Prop
  | num (v : Int64) : RedexFree (.num v)
  | sym (name : String) : RedexFree (.sym name)
  | binary {op : Operator} {l r : Expr} (hl : RedexFree l) (hr : RedexFree r)
      (h : Inert op l r) : RedexFree (.binary op l r)
  | neg {x : Expr} (hx : RedexFree x) (h : InertNegation x) : RedexFree (.neg x)
  | call {name : String} {args : List Expr} (hargs : ∀ a ∈ args, RedexFree a)
      (h : name = "pow" → ∃ b e, args = [b, e] ∧ InertPower b e) : RedexFree (.call name args)
  | stmt {x : Expr} (hx : RedexFree x) : RedexFree (.stmt x)

namespace RedexFree

theorem left {op : Operator} {l r : Expr} (h : RedexFree (.binary op l r)) : RedexFree l := by
  cases h with
  | binary hl _ _ => exact hl

theorem right {op : Operator} {l r : Expr} (h : RedexFree (.binary op l r)) : RedexFree r := by
  cases h with
  | binary _ hr _ => exact hr

theorem operand {x : Expr} (h : RedexFree (.neg x)) : RedexFree x := by
  cases h with
  | neg hx _ => exact hx

theorem build {b e : Expr} (form : PowerForm) (hb : RedexFree b) (he : RedexFree e)
    (h : InertPower b e) : RedexFree (form.build b e) := by
  cases form with
  | node => exact .binary hb he h
  | call =>
    refine .call ?_ fun _ => ⟨b, e, rfl, h⟩
    simp [hb, he]

theorem of_build {b e : Expr} (form : PowerForm) (h : RedexFree (form.build b e)) :
    RedexFree b ∧ RedexFree e := by
  cases form with
  | node => exact ⟨h.left, h.right⟩
  | call =>
    cases h with
    | call hargs _ => exact ⟨hargs b (by simp), hargs e (by simp)⟩

end RedexFree

/-! ## The local rules keep normal forms -/

theorem Negates.redexFree {x s : Expr} (h : Negates x s) (hx : RedexFree x) : RedexFree s := by
  cases h with
  | neg _ => exact hx.operand
  | num _ => exact .num _
  | keep hi => exact .neg hx hi

theorem Multiplies.redexFree {l r s : Expr} (h : Multiplies l r s) (hl : RedexFree l)
    (hr : RedexFree r) : RedexFree s := by
  induction h with
  | zero_left _ => exact .num 0
  | zero_right _ => exact .num 0
  | one_left _ => exact hr
  | one_right _ => exact hl
  | fold _ => exact .num _
  | merge _ _ ih => exact ih (.num _) hr.right
  | keep hi => exact .binary hl hr hi

theorem redexFree_term {e t : Expr} {k : Int64} (h : coefficient e = (k, t)) (he : RedexFree e) :
    RedexFree t := by
  unfold coefficient at h
  split at h
  · obtain ⟨rfl, rfl⟩ := Prod.mk.inj h
    exact he.right
  · obtain ⟨rfl, rfl⟩ := Prod.mk.inj h
    exact he

theorem Combines.redexFree {op : Operator} {onInt : ℤ → ℤ → ℤ} (hop : Inert op = InertSum onInt)
    {l r s : Expr} (h : Combines op onInt l r s) (hl : RedexFree l) (hr : RedexFree r) :
    RedexFree s := by
  cases h with
  | fold _ => exact .num _
  | like_terms ht _ _ hs => exact hs.redexFree (.num _) (redexFree_term ht hl)
  | keep hi => exact .binary hl hr (hop ▸ hi)

theorem Adds.redexFree {l r s : Expr} (h : Adds l r s) (hl : RedexFree l) (hr : RedexFree r) :
    RedexFree s := by
  cases h with
  | zero_right _ => exact hl
  | zero_left _ => exact hr
  | combine h => exact h.redexFree rfl hl hr

theorem Subtracts.redexFree {l r s : Expr} (h : Subtracts l r s) (hl : RedexFree l)
    (hr : RedexFree r) : RedexFree s := by
  cases h with
  | zero_left h => exact h.redexFree hr
  | zero_right _ => exact hl
  | combine h => exact h.redexFree rfl hl hr

theorem Divides.redexFree {l r s : Expr} (h : Divides l r (.ok s)) (hl : RedexFree l)
    (hr : RedexFree r) : RedexFree s := by
  cases h with
  | zero_left _ => exact .num 0
  | one_right _ => exact hl
  | fold _ _ => exact .num _
  | keep hi => exact .binary hl hr hi

theorem Raises.redexFree {form : PowerForm} {b e s : Expr} (h : Raises form b e (.ok s))
    (hb : RedexFree b) (he : RedexFree e) : RedexFree s := by
  -- The outcome is generalised, since a flattened power passes on what the inner one gives.
  generalize hout : Except.ok s = out at h
  induction h with
  | zero_to_zero => cases hout
  | zero_to_negative _ => cases hout
  | zero_base _ _ => cases hout; exact .num 0
  | one_base _ => cases hout; exact .num 1
  | zero_exponent _ => cases hout; exact .num 1
  | one_exponent _ => cases hout; exact hb
  | fold _ _ => cases hout; exact .num _
  | flatten inner hm _ ih =>
    obtain ⟨hu, ha⟩ := hb.of_build inner
    exact ih hu (hm.redexFree ha he) hout
  | keep hi => cases hout; exact hb.build form he hi

theorem applyRule_redexFree {op : Operator} {l r s : Expr} (h : applyRule op l r = .ok s)
    (hl : RedexFree l) (hr : RedexFree r) : RedexFree s := by
  cases op with
  | add => cases h; exact (adds_sum l r).redexFree hl hr
  | sub => cases h; exact (subtracts_difference l r).redexFree hl hr
  | mul => cases h; exact (multiplies_product l r).redexFree hl hr
  | div => exact Divides.redexFree (h ▸ divides_quotient l r) hl hr
  | pow =>
    have hp : power .node l r = .ok s := h
    exact Raises.redexFree (hp ▸ raises_power .node l r) hl hr

/-! ## The engine -/

theorem reduce_redexFree {e s : Expr} (h : reduce e = .ok s) : RedexFree s := by
  induction e generalizing s with
  | missing => cases h
  | num v => cases h; exact .num v
  | sym name => cases h; exact .sym name
  | binary op l r ihl ihr =>
    obtain ⟨l', hl, r', hr, hs⟩ := reduce_binary.mp h
    exact applyRule_redexFree hs (ihl hl) (ihr hr)
  | neg x ih =>
    obtain ⟨x', hx, rfl⟩ := reduce_neg.mp h
    exact (negates_negation x').redexFree (ih hx)
  | call name args ih =>
    obtain ⟨reduced, hargs, hs⟩ := reduce_call.mp h
    have hreduced := forall_reduced hargs fun a ha a' => ih a ha
    rcases hs with ⟨hname, rfl⟩ | ⟨_, b, e, rfl, hs⟩
    · exact .call hreduced fun hpow => (hname hpow).elim
    · have hp : Raises .call b e (.ok s) := hs ▸ raises_power .call b e
      exact hp.redexFree (hreduced b (by simp)) (hreduced e (by simp))
  | stmt x ih =>
    obtain ⟨x', hx, rfl⟩ := reduce_stmt.mp h
    exact .stmt (ih hx)

theorem reduce_of_redexFree {t : Expr} (h : RedexFree t) : reduce t = .ok t := by
  induction h with
  | num v => rfl
  | sym name => rfl
  | binary _ _ hi ihl ihr => exact reduce_binary.mpr ⟨_, ihl, _, ihr, applyRule_inert hi⟩
  | neg _ hi ih => exact reduce_neg.mpr ⟨_, ih, negation_inert hi⟩
  | @call name args hargs hpow ih =>
    have hself : List.Forall₂ (fun a a' => reduce a = .ok a') args args :=
      List.forall₂_same.mpr ih
    refine reduce_call.mpr ⟨args, hself, ?_⟩
    by_cases hname : name = "pow"
    · obtain ⟨b, e, rfl, hi⟩ := hpow hname
      subst hname
      exact Or.inr ⟨rfl, b, e, rfl, power_inert .call hi⟩
    · exact Or.inl ⟨hname, rfl⟩
  | stmt _ ih => exact reduce_stmt.mpr ⟨_, ih, rfl⟩

theorem reduce_idempotent {e s : Expr} (h : reduce e = .ok s) : reduce s = .ok s :=
  reduce_of_redexFree (reduce_redexFree h)

end Expr

/-- Simplification yields redex-free trees only, and the trees it returns unchanged
are exactly the redex-free ones. A second simplification therefore changes nothing. -/
theorem simplify_normal_form (e : Expr) :
    (∀ s, simplify e = .ok s → s.RedexFree ∧ simplify s = .ok s) ∧
      (simplify e = .ok e ↔ e.RedexFree) := by
  simp only [simplify_eq_ok]
  constructor
  · intro s h
    exact ⟨Expr.reduce_redexFree h, Expr.reduce_idempotent h⟩
  · constructor
    · intro h
      exact Expr.reduce_redexFree h
    · intro h
      exact Expr.reduce_of_redexFree h

/-- The negation of the least word is left standing, and is a normal form. -/
theorem simplify_normal_form_least :
    simplify (.sub (.num 0) (.num Int64.minValue)) = .ok (.neg (.num Int64.minValue)) ∧
      (Expr.neg (.num Int64.minValue)).RedexFree :=
  ⟨rfl, ((simplify_normal_form (.sub (.num 0) (.num Int64.minValue))).1 _ rfl).1⟩

end SymbolicCalculus
