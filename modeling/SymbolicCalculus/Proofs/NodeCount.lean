import SymbolicCalculus.Proofs.HigherDerivatives

/-!
# Simplification never grows a tree

Some local rules build nodes that were not there: a factor two for a doubled term, a product
in the exponent of a flattened power, a negation for a difference from zero. Each takes away at
least as many as it brings in, so the result of a rule has no more nodes than the node it
replaces, and neither has the result of the engine. Only the factor of a doubled term is paid
for by the term itself, which therefore has to be there.
-/

set_option autoImplicit false

namespace SymbolicCalculus

namespace Expr

/-- How many nodes a tree has. A missing operand is none. -/
def nodes (e : Expr) : ℕ :=
  e.subtrees.countP fun t => !t.isMissing

@[simp] theorem nodes_num (v : Int64) : nodes (.num v) = 1 := rfl

@[simp] theorem nodes_sym (name : String) : nodes (.sym name) = 1 := rfl

@[simp] theorem nodes_binary (op : Operator) (l r : Expr) :
    nodes (.binary op l r) = l.nodes + r.nodes + 1 := by
  simp [nodes, subtrees, isMissing]

@[simp] theorem nodes_neg (x : Expr) : nodes (.neg x) = x.nodes + 1 := by
  simp [nodes, subtrees, isMissing]

@[simp] theorem nodes_stmt (x : Expr) : nodes (.stmt x) = x.nodes + 1 := by
  simp [nodes, subtrees, isMissing]

@[simp] theorem nodes_call (name : String) (args : List Expr) :
    nodes (.call name args) = (args.map nodes).sum + 1 := by
  have hargs : (subtreesAll args).countP (fun t => !t.isMissing) = (args.map nodes).sum := by
    induction args with
    | nil => rfl
    | cons a as ih => simp [subtreesAll, nodes, ih]
  rw [nodes, subtrees, List.countP_cons_of_pos rfl, hargs]

@[simp] theorem nodes_build (form : PowerForm) (b e : Expr) :
    (form.build b e).nodes = b.nodes + e.nodes + 1 := by
  cases form with
  | node => simp [PowerForm.build]
  | call => simp [PowerForm.build]

theorem RedexFree.nodes_pos {e : Expr} (h : RedexFree e) : 0 < e.nodes := by
  cases h <;> simp

/-! ## The local rules -/

section
variable {l r s : Expr}

theorem Negates.nodes_le {x : Expr} (h : Negates x s) : s.nodes ≤ x.nodes + 1 := by
  cases h with
  | neg x => simp only [nodes_neg]; omega
  | num _ => simp
  | keep _ => simp

theorem Multiplies.nodes_le (h : Multiplies l r s) : s.nodes ≤ l.nodes + r.nodes + 1 := by
  induction h with
  | zero_left r => simp
  | zero_right l => simp
  | one_left r => simp only [nodes_num]; omega
  | one_right l => simp only [nodes_num]; omega
  | fold _ => simp
  | merge _ _ ih => simp only [nodes_num, nodes_binary] at ih ⊢; omega
  | keep _ => simp

theorem nodes_term_le {e t : Expr} {k : Int64} (h : coefficient e = (k, t)) :
    t.nodes ≤ e.nodes := by
  unfold coefficient at h
  split at h
  · obtain ⟨rfl, rfl⟩ := Prod.mk.inj h
    simp only [nodes_binary]
    omega
  · obtain ⟨rfl, rfl⟩ := Prod.mk.inj h
    exact le_refl _

/-- Two terms and the node above them become one term under a product with an integer. -/
theorem Combines.nodes_le {op : Operator} {onInt : ℤ → ℤ → ℤ} (h : Combines op onInt l r s)
    (hl : RedexFree l) : s.nodes ≤ l.nodes + r.nodes + 1 := by
  cases h with
  | fold _ => simp
  | @like_terms _ _ t _ _ _ c htl htr _ hs =>
    have hproduct : s.nodes ≤ 1 + t.nodes + 1 := hs.nodes_le
    have hleft : t.nodes ≤ l.nodes := nodes_term_le htl
    have hright : t.nodes ≤ r.nodes := nodes_term_le htr
    have hterm : 0 < t.nodes := (redexFree_term htl hl).nodes_pos
    omega
  | keep _ => simp

theorem Adds.nodes_le (h : Adds l r s) (hl : RedexFree l) : s.nodes ≤ l.nodes + r.nodes + 1 := by
  cases h with
  | zero_right l => simp only [nodes_num]; omega
  | zero_left r => simp only [nodes_num]; omega
  | combine h => exact h.nodes_le hl

theorem Subtracts.nodes_le (h : Subtracts l r s) (hl : RedexFree l) :
    s.nodes ≤ l.nodes + r.nodes + 1 := by
  cases h with
  | zero_left h =>
    have hnegation := h.nodes_le
    simp only [nodes_num]
    omega
  | zero_right l => simp only [nodes_num]; omega
  | combine h => exact h.nodes_le hl

theorem Divides.nodes_le (h : Divides l r (.ok s)) : s.nodes ≤ l.nodes + r.nodes + 1 := by
  cases h with
  | zero_left _ => simp
  | one_right _ => simp only [nodes_num]; omega
  | fold _ _ => simp
  | keep _ => simp

theorem Raises.nodes_le {form : PowerForm} {b e : Expr} (h : Raises form b e (.ok s)) :
    s.nodes ≤ b.nodes + e.nodes + 1 := by
  generalize hout : Except.ok s = out at h
  induction h with
  | zero_to_zero => cases hout
  | zero_to_negative _ => cases hout
  | zero_base _ _ => cases hout; simp
  | one_base _ => cases hout; simp
  | zero_exponent _ => cases hout; simp
  | one_exponent _ => cases hout; simp only [nodes_num]; omega
  | fold _ _ => cases hout; simp
  | flatten inner hm _ ih =>
    -- The node of the inner power is given for the node of the new product.
    have hproduct := hm.nodes_le
    have hpower := ih hout
    rw [nodes_build]
    omega
  | keep _ => cases hout; simp

theorem applyRule_nodes_le {op : Operator} (h : applyRule op l r = .ok s) (hl : RedexFree l) :
    s.nodes ≤ l.nodes + r.nodes + 1 := by
  cases op with
  | add => cases h; exact (adds_sum l r).nodes_le hl
  | sub => cases h; exact (subtracts_difference l r).nodes_le hl
  | mul => cases h; exact (multiplies_product l r).nodes_le
  | div => exact Divides.nodes_le (h ▸ divides_quotient l r)
  | pow =>
    have hp : power .node l r = .ok s := h
    exact Raises.nodes_le (hp ▸ raises_power .node l r)

end

/-! ## The engine -/

theorem sum_nodes_le {args reduced : List Expr}
    (h : List.Forall₂ (fun a a' => reduce a = .ok a') args reduced)
    (hnodes : ∀ a ∈ args, ∀ a', reduce a = .ok a' → a'.nodes ≤ a.nodes) :
    (reduced.map nodes).sum ≤ (args.map nodes).sum := by
  induction h with
  | nil => exact le_refl _
  | @cons a a' as as' ha _ ih =>
    have hfirst : a'.nodes ≤ a.nodes := hnodes a (by simp) a' ha
    have hrest := ih fun b hb => hnodes b (by simp [hb])
    simp only [List.map_cons, List.sum_cons]
    omega

theorem reduce_nodes_le {e s : Expr} (h : reduce e = .ok s) : s.nodes ≤ e.nodes := by
  induction e generalizing s with
  | missing => cases h
  | num v => cases h; exact le_refl _
  | sym name => cases h; exact le_refl _
  | binary op l r ihl ihr =>
    obtain ⟨l', hl, r', hr, hs⟩ := reduce_binary.mp h
    have hrule := applyRule_nodes_le hs (reduce_redexFree hl)
    have hleft := ihl hl
    have hright := ihr hr
    rw [nodes_binary]
    omega
  | neg x ih =>
    obtain ⟨x', hx, rfl⟩ := reduce_neg.mp h
    have hrule := (negates_negation x').nodes_le
    have hoperand := ih hx
    rw [nodes_neg]
    omega
  | call name args ih =>
    obtain ⟨reduced, hargs, hs⟩ := reduce_call.mp h
    have hsum := sum_nodes_le hargs fun a ha a' => ih a ha
    rw [nodes_call]
    rcases hs with ⟨_, rfl⟩ | ⟨_, b, e, rfl, hs⟩
    · rw [nodes_call]
      omega
    · have hp : Raises .call b e (.ok s) := hs ▸ raises_power .call b e
      have hrule := hp.nodes_le
      simp only [List.map_cons, List.map_nil, List.sum_cons, List.sum_nil] at hsum
      omega
  | stmt x ih =>
    obtain ⟨x', hx, rfl⟩ := reduce_stmt.mp h
    have hbody := ih hx
    rw [nodes_stmt, nodes_stmt]
    omega

end Expr

/-- What simplification returns has at most as many nodes as what it was given. -/
theorem simplify_nodes_le (e s : Expr) (h : simplify e = .ok s) : s.nodes ≤ e.nodes :=
  Expr.reduce_nodes_le (simplify_eq_ok.mp h)

/-- `(0 - pow(x^y, z)) + (0 - pow(x^y, z))`: a negation, a product in the exponent and a factor
two come in, and the fifteen nodes of the operand become eight. -/
theorem simplify_nodes_le_doubled :
    let t : Expr := .sub (.num 0) (.call "pow" [.pow (.sym "x") (.sym "y"), .sym "z"])
    let s : Expr := .mul (.num 2)
      (.neg (.call "pow" [.sym "x", .mul (.sym "y") (.sym "z")]))
    simplify (.add t t) = .ok s ∧ s.nodes ≤ (Expr.add t t).nodes ∧
      (Expr.add t t).nodes = 15 ∧ s.nodes = 8 := by
  intro t s
  have hs : simplify (.add t t) = .ok s := rfl
  exact ⟨hs, simplify_nodes_le _ s hs, rfl, rfl⟩

end SymbolicCalculus
