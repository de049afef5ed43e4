import SymbolicCalculus.Proofs.Rules

/-!
# Properties that the local rules pass on

A property is hereditary when it holds of every integer, and holds of an operator
node, a negation or a power exactly if it holds of the parts. A local rule builds its
result from integers and parts of its operands, so it passes on every such property;
where it stops instead, it does so for want of a value. Nothing is said here about
calls other than powers, which no local rule opens.
-/

set_option autoImplicit false

namespace SymbolicCalculus

namespace Expr

structure Hereditary (P : Expr → Prop) : Prop where
  num (v : Int64) : P (.num v)
  binary (op : Operator) (l r : Expr) : P (.binary op l r) ↔ P l ∧ P r
  neg (x : Expr) : P (.neg x) ↔ P x
  power_call (b e : Expr) : P (.call "pow" [b, e]) ↔ P b ∧ P e

theorem Hereditary.build {P : Expr → Prop} (hP : Hereditary P) (form : PowerForm) (b e : Expr) :
    P (form.build b e) ↔ P b ∧ P e := by
  cases form with
  | node => exact hP.binary .pow b e
  | call => exact hP.power_call b e

/-- A run ends in a tree with the property, or stops because an operation has no value. -/
inductive Settles (P : Expr → Prop) : Except Fault Expr → Prop
  | tree {s : Expr} (h : P s) : Settles P (.ok s)
  | undefined {f : Fault} (h : f.kind = .divisionByZero ∨ f.kind = .indeterminateForm) :
      Settles P (.error f)

theorem Settles.bind {P : Expr → Prop} {x : Except Fault Expr} {f : Expr → Except Fault Expr}
    (hx : Settles P x) (hf : ∀ a, P a → Settles P (f a)) : Settles P (x >>= f) := by
  cases hx with
  | tree h => exact hf _ h
  | undefined h => exact .undefined h

theorem Settles.of_ok {P : Expr → Prop} {s : Expr} (h : Settles P (.ok s)) : P s := by
  cases h with
  | tree h => exact h

/-! ## The local rules -/

section
variable {P : Expr → Prop} {l r s : Expr}

theorem Negates.hereditary {x : Expr} (h : Negates x s) (hP : Hereditary P) (hx : P x) : P s := by
  cases h with
  | neg _ => exact (hP.neg _).mp hx
  | num _ => exact hP.num _
  | keep _ => exact (hP.neg _).mpr hx

theorem Multiplies.hereditary (h : Multiplies l r s) (hP : Hereditary P) (hl : P l) (hr : P r) :
    P s := by
  induction h with
  | zero_left _ => exact hP.num 0
  | zero_right _ => exact hP.num 0
  | one_left _ => exact hr
  | one_right _ => exact hl
  | fold _ => exact hP.num _
  | merge _ _ ih => exact ih (hP.num _) ((hP.binary _ _ _).mp hr).2
  | keep _ => exact (hP.binary _ _ _).mpr ⟨hl, hr⟩

theorem hereditary_term {e t : Expr} {k : Int64} (h : coefficient e = (k, t))
    (hP : Hereditary P) (he : P e) : P t := by
  unfold coefficient at h
  split at h
  · obtain ⟨rfl, rfl⟩ := Prod.mk.inj h
    exact ((hP.binary _ _ _).mp he).2
  · obtain ⟨rfl, rfl⟩ := Prod.mk.inj h
    exact he

theorem Combines.hereditary {op : Operator} {onInt : ℤ → ℤ → ℤ} (h : Combines op onInt l r s)
    (hP : Hereditary P) (hl : P l) (hr : P r) : P s := by
  cases h with
  | fold _ => exact hP.num _
  | like_terms ht _ _ hs => exact hs.hereditary hP (hP.num _) (hereditary_term ht hP hl)
  | keep _ => exact (hP.binary _ _ _).mpr ⟨hl, hr⟩

theorem Adds.hereditary (h : Adds l r s) (hP : Hereditary P) (hl : P l) (hr : P r) : P s := by
  cases h with
  | zero_right _ => exact hl
  | zero_left _ => exact hr
  | combine h => exact h.hereditary hP hl hr

theorem Subtracts.hereditary (h : Subtracts l r s) (hP : Hereditary P) (hl : P l) (hr : P r) :
    P s := by
  cases h with
  | zero_left h => exact h.hereditary hP hr
  | zero_right _ => exact hl
  | combine h => exact h.hereditary hP hl hr

theorem Divides.settles {x : Except Fault Expr} (h : Divides l r x) (hP : Hereditary P)
    (hl : P l) (hr : P r) : Settles P x := by
  cases h with
  | zero_divisor _ => exact .undefined (Or.inl rfl)
  | zero_left _ => exact .tree (hP.num 0)
  | one_right _ => exact .tree hl
  | fold _ _ => exact .tree (hP.num _)
  | keep _ => exact .tree ((hP.binary _ _ _).mpr ⟨hl, hr⟩)

theorem Raises.settles {form : PowerForm} {b e : Expr} {x : Except Fault Expr}
    (h : Raises form b e x) (hP : Hereditary P) (hb : P b) (he : P e) : Settles P x := by
  induction h with
  | zero_to_zero => exact .undefined (Or.inr rfl)
  | zero_to_negative _ => exact .undefined (Or.inl rfl)
  | zero_base _ _ => exact .tree (hP.num 0)
  | one_base _ => exact .tree (hP.num 1)
  | zero_exponent _ => exact .tree (hP.num 1)
  | one_exponent _ => exact .tree hb
  | fold _ _ => exact .tree (hP.num _)
  | flatten inner hm _ ih =>
    obtain ⟨hu, ha⟩ := (hP.build inner _ _).mp hb
    exact ih hu (hm.hereditary hP ha he)
  | keep _ => exact .tree ((hP.build form _ _).mpr ⟨hb, he⟩)

theorem power_settles (form : PowerForm) (hP : Hereditary P) (hl : P l) (hr : P r) :
    Settles P (power form l r) :=
  (raises_power form l r).settles hP hl hr

theorem applyRule_settles (op : Operator) (hP : Hereditary P) (hl : P l) (hr : P r) :
    Settles P (applyRule op l r) := by
  cases op with
  | add => exact .tree ((adds_sum l r).hereditary hP hl hr)
  | sub => exact .tree ((subtracts_difference l r).hereditary hP hl hr)
  | mul => exact .tree ((multiplies_product l r).hereditary hP hl hr)
  | div => exact (divides_quotient l r).settles hP hl hr
  | pow => exact power_settles .node hP hl hr

end

end Expr

end SymbolicCalculus
