import SymbolicCalculus.Proofs.HigherDerivatives

/-!
# Derivatives in a variable that does not occur

The raw derivative of a tree in a variable that does not occur in it may be large: every
product, quotient, power and call leaves its factors behind. Each of them has a factor or
a numerator that is itself such a derivative, and zero goes through all local rules, so
what simplification returns is zero, inside as many statements as the tree stood in.
-/

set_option autoImplicit false

namespace SymbolicCalculus

namespace Expr

/-! ## Occurrences -/

def Throughout (Q : Expr → Prop) (e : Expr) : Prop :=
  ∀ t ∈ e.subtrees, Q t

instance (Q : Expr → Prop) [DecidablePred Q] (e : Expr) : Decidable (Throughout Q e) :=
  inferInstanceAs (Decidable (∀ t ∈ e.subtrees, Q t))

theorem throughout_binary {Q : Expr → Prop} {op : Operator} {l r : Expr} :
    Throughout Q (.binary op l r) ↔ Q (.binary op l r) ∧ Throughout Q l ∧ Throughout Q r := by
  simp only [Throughout, subtrees, List.forall_mem_cons, List.forall_mem_append]

theorem throughout_neg {Q : Expr → Prop} {x : Expr} :
    Throughout Q (.neg x) ↔ Q (.neg x) ∧ Throughout Q x := by
  simp only [Throughout, subtrees, List.forall_mem_cons]

theorem throughout_stmt {Q : Expr → Prop} {x : Expr} :
    Throughout Q (.stmt x) ↔ Q (.stmt x) ∧ Throughout Q x := by
  simp only [Throughout, subtrees, List.forall_mem_cons]

theorem throughout_call {Q : Expr → Prop} {name : String} {args : List Expr} :
    Throughout Q (.call name args) ↔ Q (.call name args) ∧ ∀ a ∈ args, Throughout Q a := by
  simp only [Throughout, subtrees, List.forall_mem_cons, mem_subtreesAll]
  refine and_congr_right fun _ => ?_
  constructor
  · intro h a ha t ht
    exact h t ⟨a, ha, ht⟩
  · rintro h t ⟨a, ha, ht⟩
    exact h a ha t ht

theorem inherited_throughout {Q : Expr → Prop}
    (hplain : ∀ t, (∀ name, t ≠ .sym name) → (∀ x, t ≠ .stmt x) → Q t)
    (hstmt : ∀ x y, Q (.stmt x) → Q (.stmt y)) : Inherited (Throughout Q) where
  num v := by
    intro t ht
    obtain rfl := List.mem_singleton.mp ht
    exact hplain _ (by simp) (by simp)
  binary op l r := by
    rw [throughout_binary, and_iff_right (hplain _ (by simp) (by simp))]
  neg x := by
    rw [throughout_neg, and_iff_right (hplain _ (by simp) (by simp))]
  power_call b e := by
    rw [throughout_call, and_iff_right (hplain _ (by simp) (by simp))]
    simp
  argument h := (throughout_call.mp h).2
  call _ _ hargs := throughout_call.mpr ⟨hplain _ (by simp) (by simp), hargs⟩
  apply f u hu := throughout_call.mpr ⟨hplain _ (by simp) (by simp), by simpa using hu⟩
  body h := (throughout_stmt.mp h).2
  stmt h hy := throughout_stmt.mpr ⟨hstmt _ _ (throughout_stmt.mp h).1, hy⟩

def Independent (v : String) : Expr → Prop :=
  Throughout (· ≠ .sym v)

def isStatement : Expr → Bool
  | .stmt _ => true
  | _ => false

def StmtFree : Expr → Prop :=
  Throughout fun t => t.isStatement = false

instance (v : String) (e : Expr) : Decidable (e.Independent v) :=
  inferInstanceAs (Decidable (Throughout _ e))

instance (e : Expr) : Decidable e.StmtFree :=
  inferInstanceAs (Decidable (Throughout _ e))

theorem inherited_independent (v : String) : Inherited (Independent v) :=
  inherited_throughout (fun _ hsym _ => hsym v) (by simp)

theorem inherited_stmtFree : Inherited StmtFree :=
  inherited_throughout
    (fun t _ hstmt => by
      cases t with
      | stmt x => exact (hstmt x rfl).elim
      | _ => rfl)
    (fun _ _ h => h)

theorem not_stmtFree_stmt (x : Expr) : ¬ StmtFree (.stmt x) := by
  intro h
  exact absurd (throughout_stmt.mp h).1 (by simp [isStatement])

theorem anyDependsOn_eq_false {v : String} {args : List Expr}
    (h : ∀ a ∈ args, dependsOn v a = false) : anyDependsOn v args = false := by
  induction args with
  | nil => rfl
  | cons a as ih =>
    rw [anyDependsOn, h a (by simp), ih fun b hb => h b (by simp [hb]), Bool.or_false]

theorem dependsOn_eq_false {v : String} {e : Expr} (h : Independent v e) :
    dependsOn v e = false := by
  have hP := inherited_independent v
  induction e with
  | missing => rfl
  | num _ => rfl
  | sym name =>
    have hname : Expr.sym name ≠ .sym v := h _ (mem_subtrees_self _)
    simpa [dependsOn] using hname
  | binary op l r ihl ihr =>
    obtain ⟨hl, hr⟩ := (hP.binary op l r).mp h
    rw [dependsOn, ihl hl, ihr hr, Bool.or_false]
  | neg x ih =>
    rw [dependsOn]
    exact ih ((hP.neg x).mp h)
  | call name args ih =>
    rw [dependsOn]
    exact anyDependsOn_eq_false fun a ha => ih a ha (hP.argument h a ha)
  | stmt x ih =>
    rw [dependsOn]
    exact ih (hP.body h)

/-! ## What simplification returns -/

def Yields (P : Expr → Prop) (e : Expr) : Prop :=
  ∀ s, reduce e = .ok s → P s

namespace Yields

variable {P Q R : Expr → Prop} {l r x : Expr}

theorem anything (e : Expr) : Yields (fun _ => True) e :=
  fun _ _ => trivial

theorem of_ok {e t : Expr} (h : reduce e = .ok t) : Yields (· = t) e := by
  intro s hs
  exact Except.ok.inj (hs.symm.trans h)

theorem num (v : Int64) : Yields (· = .num v) (.num v) :=
  of_ok rfl

theorem binary {op : Operator} (hl : Yields P l) (hr : Yields Q r)
    (h : ∀ l' r' s, P l' → Q r' → applyRule op l' r' = .ok s → R s) :
    Yields R (.binary op l r) := by
  intro s hs
  obtain ⟨l', hl', r', hr', happly⟩ := reduce_binary.mp hs
  exact h l' r' s (hl l' hl') (hr r' hr') happly

theorem add (hl : Yields P l) (hr : Yields Q r) (h : ∀ l' r', P l' → Q r' → R (sum l' r')) :
    Yields R (.add l r) := by
  refine hl.binary hr ?_
  rintro l' r' s hl' hr' ⟨⟩
  exact h l' r' hl' hr'

theorem sub (hl : Yields P l) (hr : Yields Q r)
    (h : ∀ l' r', P l' → Q r' → R (difference l' r')) : Yields R (.sub l r) := by
  refine hl.binary hr ?_
  rintro l' r' s hl' hr' ⟨⟩
  exact h l' r' hl' hr'

theorem mul (hl : Yields P l) (hr : Yields Q r) (h : ∀ l' r', P l' → Q r' → R (product l' r')) :
    Yields R (.mul l r) := by
  refine hl.binary hr ?_
  rintro l' r' s hl' hr' ⟨⟩
  exact h l' r' hl' hr'

theorem neg (hx : Yields P x) (h : ∀ x', P x' → R (negation x')) : Yields R (.neg x) := by
  intro s hs
  obtain ⟨x', hx', rfl⟩ := reduce_neg.mp hs
  exact h x' (hx x' hx')

theorem build (form : PowerForm) (hl : Yields P l) (hr : Yields Q r)
    (h : ∀ l' r' s, RedexFree l' → P l' → Q r' → power form l' r' = .ok s → R s) :
    Yields R (form.build l r) := by
  intro s hs
  rw [reduce_build] at hs
  obtain ⟨l', hl', hs⟩ := bind_eq_ok.mp hs
  obtain ⟨r', hr', hs⟩ := bind_eq_ok.mp hs
  exact h l' r' s (reduce_redexFree hl') (hl l' hl') (hr r' hr') hs

end Yields

/-! ## Zero goes through the local rules -/

def Vanishes : Expr → Prop :=
  Yields (· = .num 0)

theorem product_zero_left (r : Expr) : product (.num 0) r = .num 0 := by
  rw [product.eq_def, if_pos (by simp)]

theorem product_zero_right (l : Expr) : product l (.num 0) = .num 0 := by
  rw [product.eq_def, if_pos (by simp)]

theorem quotient_zero_left {r s : Expr} (h : quotient (.num 0) r = .ok s) : s = .num 0 := by
  have hzero : (Expr.num 0).isZero = true := isZero_iff.mpr rfl
  simp only [quotient, hzero, if_true] at h
  split_ifs at h
  exact (Except.ok.inj h).symm

namespace Vanishes

variable {l r x : Expr}

theorem zero : Vanishes (.num 0) :=
  Yields.num 0

theorem add (hl : Vanishes l) (hr : Vanishes r) : Vanishes (.add l r) := by
  refine Yields.add hl hr ?_
  rintro _ _ rfl rfl
  rfl

theorem sub (hl : Vanishes l) (hr : Vanishes r) : Vanishes (.sub l r) := by
  refine Yields.sub hl hr ?_
  rintro _ _ rfl rfl
  rfl

theorem neg (hx : Vanishes x) : Vanishes (.neg x) := by
  refine Yields.neg hx ?_
  rintro _ rfl
  rfl

theorem mul_left (hl : Vanishes l) (r : Expr) : Vanishes (.mul l r) := by
  refine Yields.mul hl (.anything r) ?_
  rintro _ r' rfl _
  exact product_zero_left r'

theorem mul_right (l : Expr) (hr : Vanishes r) : Vanishes (.mul l r) := by
  refine Yields.mul (.anything l) hr ?_
  rintro l' _ _ rfl
  exact product_zero_right l'

/-- The divisor is looked at first; where it is zero there is no result at all. -/
theorem div (hl : Vanishes l) (r : Expr) : Vanishes (.div l r) := by
  refine Yields.binary hl (.anything r) ?_
  rintro _ r' s rfl _ happly
  exact quotient_zero_left happly

end Vanishes

/-! ## Differentiation -/

/-- Neither the variable nor a statement occurs in the tree. -/
structure Fixed (v : String) (e : Expr) : Prop where
  stmtFree : StmtFree e
  independent : Independent v e

theorem inherited_fixed (v : String) : Inherited (Fixed v) :=
  (inherited_stmtFree.and (inherited_independent v)).of_iff fun _ =>
    ⟨fun h => ⟨h.1, h.2⟩, fun h => ⟨h.stmtFree, h.independent⟩⟩

theorem powerRule_vanishes (form : PowerForm) {v : String} (b : Expr) {e db : Expr} (de : Expr)
    (he : Independent v e) (hdb : Vanishes db) : Vanishes (powerRule form v b e db de) := by
  unfold powerRule
  rw [dependsOn_eq_false he]
  exact .mul_right _ hdb

theorem operatorRule_vanishes (op : Operator) {v : String} (l : Expr) {r dl dr : Expr}
    (hr : Independent v r) (hdl : Vanishes dl) (hdr : Vanishes dr) :
    Vanishes (operatorRule op v l r dl dr) := by
  cases op with
  | add => exact hdl.add hdr
  | sub => exact hdl.sub hdr
  | mul => exact (hdl.mul_left r).add (hdr.mul_right l)
  | div => exact ((hdl.mul_left r).sub (hdr.mul_right l)).div _
  | pow => exact powerRule_vanishes .node l dr hr hdl

theorem derive_vanishes {v : String} {e d : Expr} (h : Fixed v e) (hd : derive v e = .ok d) :
    Vanishes d := by
  have hP := inherited_fixed v
  induction e generalizing d with
  | missing => cases hd
  | num _ => cases hd; exact .zero
  | sym name =>
    have hname : name ≠ v := fun heq => h.independent _ (mem_subtrees_self _) (by rw [heq])
    rw [derive, if_neg hname] at hd
    cases hd
    exact .zero
  | binary op l r ihl ihr =>
    obtain ⟨hl, hr⟩ := (hP.binary op l r).mp h
    obtain ⟨dl, hdl, dr, hdr, rfl⟩ := derive_binary.mp hd
    exact operatorRule_vanishes op l hr.independent (ihl hl hdl) (ihr hr hdr)
  | neg x ih =>
    obtain ⟨dx, hdx, rfl⟩ := derive_neg.mp hd
    exact (ih ((hP.neg x).mp h) hdx).neg
  | call name args ih =>
    have hargs := hP.argument h
    obtain ⟨_, _, rfl⟩ | ⟨f, u, du, _, rfl, hdu, rfl⟩ | ⟨b, e, db, de, _, rfl, hdb, _, rfl⟩ :=
      derive_call hd
    · exact .zero
    · exact .mul_right _ (ih u (by simp) (hargs u (by simp)) hdu)
    · exact powerRule_vanishes .call b de (hargs e (by simp)).independent
        (ih b (by simp) (hargs b (by simp)) hdb)
  | stmt x _ => exact (not_stmtFree_stmt x h.stmtFree).elim

def inStatements (e : Expr) : ℕ → Expr
  | 0 => e
  | k + 1 => .stmt (e.inStatements k)

end Expr

/-- The derivative of a tree in a variable that does not occur in it simplifies to zero,
if it simplifies at all. Statements around the tree stand around the zero. -/
theorem differentiateSimplify_independent (v : String) (e : Expr) (hstmt : e.StmtFree)
    (hv : e.Independent v) (k : ℕ) (s : Expr)
    (h : differentiateSimplify v (e.inStatements k) = .ok s) :
    s = (Expr.num 0).inStatements k := by
  induction k generalizing s with
  | zero =>
    obtain ⟨d, hd, hs⟩ := differentiateSimplify_eq_ok.mp h
    exact Expr.derive_vanishes ⟨hstmt, hv⟩ hd s hs
  | succ k ih =>
    obtain ⟨d, hd, hs⟩ := differentiateSimplify_eq_ok.mp h
    obtain ⟨dx, hdx, rfl⟩ := Expr.derive_stmt.mp hd
    obtain ⟨x, hx, rfl⟩ := Expr.reduce_stmt.mp hs
    rw [ih x (differentiateSimplify_eq_ok.mpr ⟨dx, hdx, hx⟩)]
    rfl

/-- `log(y + 1) / pow(z, cos(y))` by `x`, inside two statements. -/
theorem differentiateSimplify_independent_quotient :
    let e : Expr := .div (.call "log" [.add (.sym "y") (.num 1)])
      (.call "pow" [.sym "z", .call "cos" [.sym "y"]])
    e.StmtFree ∧ e.Independent "x" ∧
      differentiateSimplify "x" (e.inStatements 2) = .ok (.stmt (.stmt (.num 0))) := by
  intro e
  have hstmt : e.StmtFree := by decide
  have hv : e.Independent "x" := by decide
  have hok : ∃ s, differentiateSimplify "x" (e.inStatements 2) = .ok s := ⟨_, rfl⟩
  obtain ⟨s, hs⟩ := hok
  obtain rfl := differentiateSimplify_independent "x" e hstmt hv 2 s hs
  exact ⟨hstmt, hv, hs⟩

end SymbolicCalculus
