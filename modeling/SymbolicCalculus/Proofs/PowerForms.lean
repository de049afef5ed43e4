import SymbolicCalculus.Proofs.Evaluation
import SymbolicCalculus.Proofs.HigherDerivatives

/-!
# The two ways to write a power

A power is written as an operator node or as a call of `pow`. Turning every call into
a node commutes with differentiation and keeps the outcome of evaluation. It commutes
with simplification where no power is written as a node: like terms are found by
comparing trees, and two trees that differ only in how a power is written are not equal.
-/

set_option autoImplicit false

namespace SymbolicCalculus

namespace Expr
open Fault (outcome outcome_bind)

def callAsNode (name : String) : List Expr → Expr
  | [b, e] => if name = "pow" then .pow b e else .call name [b, e]
  | args => .call name args

mutual
/-- The tree with an operator node in place of every call of `pow` with two arguments. -/
def powersAsNodes : Expr → Expr
  | .missing => .missing
  | .num v => .num v
  | .sym name => .sym name
  | .binary op l r => .binary op (powersAsNodes l) (powersAsNodes r)
  | .neg x => .neg (powersAsNodes x)
  | .call name args => callAsNode name (powersAsNodesAll args)
  | .stmt x => .stmt (powersAsNodes x)
def powersAsNodesAll : List Expr → List Expr
  | [] => []
  | a :: as => powersAsNodes a :: powersAsNodesAll as
end

@[simp] theorem powersAsNodes_num (v : Int64) : powersAsNodes (.num v) = .num v := rfl

@[simp] theorem powersAsNodes_binary (op : Operator) (l r : Expr) :
    powersAsNodes (.binary op l r) = .binary op l.powersAsNodes r.powersAsNodes := rfl

@[simp] theorem powersAsNodes_neg (x : Expr) : powersAsNodes (.neg x) = .neg x.powersAsNodes := rfl

@[simp] theorem powersAsNodes_stmt (x : Expr) :
    powersAsNodes (.stmt x) = .stmt x.powersAsNodes := rfl

@[simp] theorem powersAsNodes_single (name : String) (u : Expr) :
    powersAsNodes (.call name [u]) = .call name [u.powersAsNodes] := rfl

@[simp] theorem powersAsNodes_pow (b e : Expr) :
    powersAsNodes (.call "pow" [b, e]) = .pow b.powersAsNodes e.powersAsNodes := rfl

theorem powersAsNodes_build (form : PowerForm) (b e : Expr) :
    powersAsNodes (form.build b e) =
      PowerForm.node.build b.powersAsNodes e.powersAsNodes := by
  cases form with
  | node => rfl
  | call => rfl

/-! ## Differentiation -/

theorem dependsOn_powersAsNodes {e : Expr} (h : WellFormed e) (v : String) :
    dependsOn v e.powersAsNodes = dependsOn v e := by
  induction h with
  | num _ => rfl
  | sym _ => rfl
  | binary op _ _ ihl ihr => simp [dependsOn, ihl, ihr]
  | neg _ ih => simpa [dependsOn] using ih
  | pi => rfl
  | unary f _ ih => simp [dependsOn, anyDependsOn, ih]
  | pow _ _ ihb ihe => simp [dependsOn, anyDependsOn, ihb, ihe]
  | stmt _ ih => simpa [dependsOn] using ih

theorem powersAsNodes_outer (f : Unary) (u : Expr) :
    powersAsNodes (f.outer u) = f.outer u.powersAsNodes := by
  cases f <;> simp [Unary.outer, square, reciprocal]

theorem powersAsNodes_powerRule (form : PowerForm) (v : String) {b e db de : Expr}
    (he : WellFormed e) :
    powersAsNodes (powerRule form v b e db de) =
      powerRule .node v b.powersAsNodes e.powersAsNodes db.powersAsNodes de.powersAsNodes := by
  unfold powerRule
  rw [dependsOn_powersAsNodes he v]
  split_ifs
  · simp [powersAsNodes_build]
  · simp [powersAsNodes_build]

theorem powersAsNodes_operatorRule (op : Operator) (v : String) {l r dl dr : Expr}
    (hr : WellFormed r) :
    powersAsNodes (operatorRule op v l r dl dr) =
      operatorRule op v l.powersAsNodes r.powersAsNodes dl.powersAsNodes dr.powersAsNodes := by
  cases op with
  | pow => exact powersAsNodes_powerRule .node v hr
  | _ => rfl

theorem derive_powersAsNodes {v : String} {e d : Expr} (h : WellFormed e)
    (hd : derive v e = .ok d) : derive v e.powersAsNodes = .ok d.powersAsNodes := by
  induction h generalizing d with
  | num _ => cases hd; rfl
  | sym _ => cases hd; rfl
  | binary op _ hr ihl ihr =>
    obtain ⟨dl, hdl, dr, hdr, rfl⟩ := derive_binary.mp hd
    rw [powersAsNodes_operatorRule op v hr]
    exact derive_binary.mpr ⟨_, ihl hdl, _, ihr hdr, rfl⟩
  | neg _ ih =>
    obtain ⟨dx, hdx, rfl⟩ := derive_neg.mp hd
    exact derive_neg.mpr ⟨_, ih hdx, rfl⟩
  | pi =>
    obtain rfl := derive_pi.mp hd
    exact derive_pi.mpr rfl
  | unary f _ ih =>
    obtain ⟨du, hdu, rfl⟩ := derive_unary.mp hd
    rw [powersAsNodes_binary, powersAsNodes_outer]
    exact derive_unary.mpr ⟨_, ih hdu, rfl⟩
  | pow _ he ihb ihe =>
    obtain ⟨db, hdb, de, hde, rfl⟩ := derive_pow.mp hd
    rw [powersAsNodes_powerRule .call v he]
    exact derive_binary.mpr ⟨_, ihb hdb, _, ihe hde, rfl⟩
  | stmt _ ih =>
    obtain ⟨dx, hdx, rfl⟩ := derive_stmt.mp hd
    exact derive_stmt.mpr ⟨_, ih hdx, rfl⟩

/-! ## Evaluation -/

theorem isMissing_powersAsNodes {e : Expr} (h : WellFormed e) :
    e.powersAsNodes.isMissing = false := by
  cases h <;> rfl

theorem value_powersAsNodes {e : Expr} (h : WellFormed e) (env : Environment) :
    outcome (value env e.powersAsNodes) = outcome (value env e) := by
  induction h with
  | num _ => rfl
  | sym _ => rfl
  | binary op _ _ ihl ihr =>
    rw [powersAsNodes_binary, value_binary, value_binary]
    exact outcome_bind ihl fun _ => outcome_bind ihr fun _ => outcome_operatorValue _ _ op _ _
  | neg _ ih =>
    rw [powersAsNodes_neg, value_neg, value_neg]
    exact outcome_bind ih fun _ => rfl
  | pi => rfl
  | unary f hu ih =>
    rw [powersAsNodes_single, value_unary f (isMissing_powersAsNodes hu),
      value_unary f hu.isMissing_eq_false]
    exact outcome_bind ih fun _ => rfl
  | pow hb he ihb ihe =>
    rw [powersAsNodes_pow, value_binary, value_pow hb.isMissing_eq_false he.isMissing_eq_false]
    exact outcome_bind ihb fun _ => outcome_bind ihe fun _ => outcome_powerValue _ _ _ _
  | stmt _ ih =>
    rw [powersAsNodes_stmt, value_stmt, value_stmt]
    exact ih

/-! ## Trees that differ in how powers are written -/

/-- Two trees that are alike but for their powers, which are nodes in the first and calls in
the second. Other calls have at most one argument. -/
inductive Twin : Expr → Expr → Prop
  | num (v : Int64) : Twin (.num v) (.num v)
  | sym (name : String) : Twin (.sym name) (.sym name)
  | binary {op : Operator} {l l' r r' : Expr} (hop : op ≠ .pow) (hl : Twin l l')
      (hr : Twin r r') : Twin (.binary op l r) (.binary op l' r')
  | neg {x x' : Expr} (hx : Twin x x') : Twin (.neg x) (.neg x')
  | constant (name : String) : Twin (.call name []) (.call name [])
  | single {name : String} {u u' : Expr} (hname : name ≠ "pow") (hu : Twin u u') :
      Twin (.call name [u]) (.call name [u'])
  | pow {b b' e e' : Expr} (hb : Twin b b') (he : Twin e e') :
      Twin (.pow b e) (.call "pow" [b', e'])
  | stmt {x x' : Expr} (hx : Twin x x') : Twin (.stmt x) (.stmt x')

namespace Twin

theorem of_wellFormed {e : Expr} (h : WellFormed e) (hnode : ∀ b x, Expr.pow b x ∉ e.subtrees) :
    Twin e.powersAsNodes e := by
  induction h with
  | num v => exact .num v
  | sym _ => exact .sym _
  | binary op _ _ ihl ihr =>
    simp only [subtrees, List.mem_cons, List.mem_append, not_or] at hnode
    refine .binary ?_ (ihl fun b x => (hnode b x).2.1) (ihr fun b x => (hnode b x).2.2)
    rintro rfl
    exact (hnode _ _).1 rfl
  | neg _ ih =>
    simp only [subtrees, List.mem_cons, not_or] at hnode
    exact .neg (ih fun b x => (hnode b x).2)
  | pi => exact .constant "pi"
  | unary f _ ih =>
    simp only [subtrees, subtreesAll, List.mem_cons, List.mem_append, not_or] at hnode
    exact .single f.name_ne_pow (ih fun b x => (hnode b x).2.1)
  | pow _ _ ihb ihe =>
    simp only [subtrees, subtreesAll, List.mem_cons, List.mem_append, not_or] at hnode
    exact .pow (ihb fun b x => (hnode b x).2.1) (ihe fun b x => (hnode b x).2.2.1)
  | stmt _ ih =>
    simp only [subtrees, List.mem_cons, not_or] at hnode
    exact .stmt (ih fun b x => (hnode b x).2)

section
variable {l l' r r' : Expr}

theorem eq_powersAsNodes (h : Twin l l') : l = l'.powersAsNodes := by
  induction h with
  | num _ => rfl
  | sym _ => rfl
  | binary _ _ _ ihl ihr => rw [powersAsNodes_binary, ← ihl, ← ihr]
  | neg _ ih => rw [powersAsNodes_neg, ← ih]
  | constant _ => rfl
  | single _ _ ih => rw [powersAsNodes_single, ← ih]
  | pow _ _ ihb ihe => rw [powersAsNodes_pow, ← ihb, ← ihe]
  | stmt _ ih => rw [powersAsNodes_stmt, ← ih]

theorem right_unique (h : Twin l l') {l'' : Expr} (h' : Twin l l'') : l' = l'' := by
  induction h generalizing l'' with
  | num _ => cases h'; rfl
  | sym _ => cases h'; rfl
  | binary hop _ _ ihl ihr =>
    cases h' with
    | binary _ hl hr => rw [ihl hl, ihr hr]
    | pow _ _ => exact (hop rfl).elim
  | neg _ ih =>
    cases h' with
    | neg hx => rw [ih hx]
  | constant _ => cases h'; rfl
  | single _ _ ih =>
    cases h' with
    | single _ hu => rw [ih hu]
  | pow _ _ ihb ihe =>
    cases h' with
    | binary hop _ _ => exact (hop rfl).elim
    | pow hb he => rw [ihb hb, ihe he]
  | stmt _ ih =>
    cases h' with
    | stmt hx => rw [ih hx]

theorem eq_iff (hl : Twin l l') (hr : Twin r r') : l = r ↔ l' = r' := by
  constructor
  · rintro rfl
    exact hl.right_unique hr
  · rintro rfl
    rw [hl.eq_powersAsNodes, hr.eq_powersAsNodes]

/-! ## The tests of the rules -/

theorem isZero_eq (h : Twin l l') : l.isZero = l'.isZero := by
  cases h <;> rfl

theorem isUnity_eq (h : Twin l l') : l.isUnity = l'.isUnity := by
  cases h <;> rfl

theorem isNegative_eq (h : Twin l l') : l.isNegative = l'.isNegative := by
  cases h <;> rfl

theorem isInteger_eq (h : Twin l l') : l.isInteger = l'.isInteger := by
  cases h <;> rfl

theorem integers?_eq (hl : Twin l l') (hr : Twin r r') : integers? l r = integers? l' r' := by
  cases hl <;> cases hr <;> rfl

theorem integerPower?_eq (hl : Twin l l') (hr : Twin r r') :
    integerPower? l r = integerPower? l' r' := by
  cases hl <;> cases hr <;> rfl

theorem coefficient (h : Twin l l') :
    (Expr.coefficient l).1 = (Expr.coefficient l').1 ∧
      Twin (Expr.coefficient l).2 (Expr.coefficient l').2 := by
  have hwhole := h
  cases h with
  | @binary op _ _ _ _ hop hl hr =>
    cases op with
    | mul =>
      cases hl with
      | num k => exact ⟨rfl, hr⟩
      | _ => exact ⟨rfl, hwhole⟩
    | pow => exact (hop rfl).elim
    | _ => exact ⟨rfl, hwhole⟩
  | _ => exact ⟨rfl, hwhole⟩

/-! ## The local rules -/

theorem negation (h : Twin l l') : Twin (Expr.negation l) (Expr.negation l') := by
  cases h with
  | num v =>
    simp only [Expr.negation]
    split_ifs
    · exact .neg (.num v)
    · exact .num (-v)
  | neg hx => exact hx
  | binary hop hl hr => exact .neg (.binary hop hl hr)
  | sym name => exact .neg (.sym name)
  | constant name => exact .neg (.constant name)
  | single hname hu => exact .neg (.single hname hu)
  | pow hb he => exact .neg (.pow hb he)
  | stmt hx => exact .neg (.stmt hx)

/-- A product looks at the integers in its operands and in front of the right one, and
these are the same in both writings. -/
theorem product (hl : Twin l l') (hr : Twin r r') :
    Twin (Expr.product l r) (Expr.product l' r') := by
  have hzero : (l.isZero || r.isZero) = (l'.isZero || r'.isZero) := by
    rw [hl.isZero_eq, hr.isZero_eq]
  have hleft := hl.isUnity_eq
  have hright := hr.isUnity_eq
  fun_induction Expr.product l r generalizing l' r' with
  | case1 r l hz =>
    rw [Expr.product.eq_def, if_pos (hzero ▸ hz)]
    exact .num 0
  | case2 r l hz hu =>
    rw [Expr.product.eq_def, if_neg (hzero ▸ hz), if_pos (hleft ▸ hu)]
    exact hr
  | case3 r l hz hu hv =>
    rw [Expr.product.eq_def, if_neg (hzero ▸ hz), if_neg (hleft ▸ hu), if_pos (hright ▸ hv)]
    exact hl
  | case4 a b p hp hv hu hz =>
    cases hl
    cases hr
    rw [Expr.product.eq_def, if_neg hz, if_neg hu, if_neg hv]
    simp only [hp]
    exact .num p
  | case5 a b hp hv hu hz =>
    cases hl
    cases hr
    rw [Expr.product.eq_def, if_neg hz, if_neg hu, if_neg hv]
    simp only [hp]
    exact .binary (by simp) (.num a) (.num b)
  | case6 a b t p hp hv hu hz ih =>
    cases hl
    cases hr with
    | binary _ hb ht =>
      cases hb
      rw [Expr.product.eq_def (.num a), if_neg (hzero ▸ hz), if_neg hu, if_neg (hright ▸ hv)]
      simp only [hp]
      exact ih (.num p) ht (by rw [ht.isZero_eq]) rfl ht.isUnity_eq
  | case7 a b t hp hv hu hz =>
    cases hl
    cases hr with
    | binary hop hb ht =>
      cases hb
      rw [Expr.product.eq_def (.num a), if_neg (hzero ▸ hz), if_neg hu, if_neg (hright ▸ hv)]
      simp only [hp]
      exact .binary hop (.num a) (.binary hop (.num b) ht)
  | case8 l r hfold hmerge hv hu hz =>
    rw [Expr.product.eq_def, if_neg (hzero ▸ hz), if_neg (hleft ▸ hu), if_neg (hright ▸ hv)]
    split
    · cases hl
      cases hr
      exact (hfold _ _ rfl rfl).elim
    · cases hl
      cases hr with
      | binary _ hb _ =>
        cases hb
        exact (hmerge _ _ _ rfl rfl).elim
    · exact .binary (by simp) hl hr

theorem combine {op : Operator} {fold : Int64 → Int64 → Option Int64} (hop : op ≠ .pow)
    (hl : Twin l l') (hr : Twin r r') :
    Twin (Expr.combine op fold l r) (Expr.combine op fold l' r') := by
  obtain ⟨hcl, htl⟩ := hl.coefficient
  obtain ⟨hcr, htr⟩ := hr.coefficient
  unfold Expr.combine
  rw [hl.integers?_eq hr]
  cases integers? l' r' with
  | some p =>
    obtain ⟨a, b⟩ := p
    dsimp only
    cases fold a b with
    | some c => exact .num c
    | none => exact .binary hop hl hr
  | none =>
    dsimp only
    unfold likeTerms
    simp only [hl.isInteger_eq, hr.isInteger_eq, htl.eq_iff htr, hcl, hcr]
    split_ifs
    · exact .binary hop hl hr
    · cases fold (Expr.coefficient l').1 (Expr.coefficient r').1 with
      | some c => exact (Twin.num c).product htl
      | none => exact .binary hop hl hr
    · exact .binary hop hl hr

theorem sum (hl : Twin l l') (hr : Twin r r') : Twin (Expr.sum l r) (Expr.sum l' r') := by
  unfold Expr.sum
  rw [hl.isZero_eq, hr.isZero_eq]
  split_ifs
  · exact hl
  · exact hr
  · exact hl.combine (by simp) hr

theorem difference (hl : Twin l l') (hr : Twin r r') :
    Twin (Expr.difference l r) (Expr.difference l' r') := by
  unfold Expr.difference
  rw [hl.isZero_eq, hr.isZero_eq]
  split_ifs
  · exact hr.negation
  · exact hl
  · exact hl.combine (by simp) hr

end

end Twin

/-! ## Runs on both writings -/

/-- Both runs end in twins, or both stop for a reason of the same kind. -/
inductive TwinRuns : Except Fault Expr → Except Fault Expr → Prop
  | trees {s s' : Expr} (h : Twin s s') : TwinRuns (.ok s) (.ok s')
  | faults {f f' : Fault} (h : f.kind = f'.kind) : TwinRuns (.error f) (.error f')

namespace TwinRuns

theorem bind {x x' : Except Fault Expr} {g g' : Expr → Except Fault Expr} (hx : TwinRuns x x')
    (hg : ∀ s s', Twin s s' → TwinRuns (g s) (g' s')) : TwinRuns (x >>= g) (x' >>= g') := by
  cases hx with
  | trees h => exact hg _ _ h
  | faults h => exact .faults h

theorem outcome_eq {x x' : Except Fault Expr} (h : TwinRuns x x') :
    outcome x = outcome (x'.map powersAsNodes) := by
  cases h with
  | trees h => rw [h.eq_powersAsNodes]; rfl
  | faults h => exact congrArg Except.error h

end TwinRuns

namespace Twin
variable {l l' r r' : Expr}

theorem quotient (hl : Twin l l') (hr : Twin r r') :
    TwinRuns (Expr.quotient l r) (Expr.quotient l' r') := by
  have hkeep : TwinRuns (.ok (.div l r)) (.ok (.div l' r')) := .trees (.binary (by simp) hl hr)
  unfold Expr.quotient
  rw [hl.isZero_eq, hr.isZero_eq, hr.isUnity_eq, hl.integers?_eq hr]
  split_ifs
  · exact .faults rfl
  · exact .trees (.num 0)
  · exact .trees hl
  · cases integers? l' r' with
    | some p =>
      dsimp only
      cases Checked.divExact p.1 p.2 with
      | some q => exact .trees (.num q)
      | none => exact hkeep
    | none => exact hkeep

theorem power (hl : Twin l l') (hr : Twin r r') :
    TwinRuns (Expr.power .node l r) (Expr.power .call l' r') := by
  have hbase := hl.isZero_eq
  have hone : (l.isUnity || r.isZero) = (l'.isUnity || r'.isZero) := by
    rw [hl.isUnity_eq, hr.isZero_eq]
  have hexp := hr.isUnity_eq
  have hint := hl.integerPower?_eq hr
  fun_induction Expr.power .node l r generalizing l' r' with
  | case1 l r hb he =>
    rw [Expr.power.eq_def .call, if_pos (hbase ▸ hb), if_pos (hr.isZero_eq ▸ he)]
    exact .faults rfl
  | case2 l r hb he hn =>
    rw [Expr.power.eq_def .call, if_pos (hbase ▸ hb), if_neg (hr.isZero_eq ▸ he),
      if_pos (hr.isNegative_eq ▸ hn)]
    exact .faults rfl
  | case3 l r hb he hn =>
    rw [Expr.power.eq_def .call, if_pos (hbase ▸ hb), if_neg (hr.isZero_eq ▸ he),
      if_neg (hr.isNegative_eq ▸ hn)]
    exact .trees (.num 0)
  | case4 l r hb h =>
    rw [Expr.power.eq_def .call, if_neg (hbase ▸ hb), if_pos (hone ▸ h)]
    exact .trees (.num 1)
  | case5 l r hb h he =>
    rw [Expr.power.eq_def .call, if_neg (hbase ▸ hb), if_neg (hone ▸ h), if_pos (hexp ▸ he)]
    exact .trees hl
  | case6 l r hb h he a n hi p hp =>
    rw [Expr.power.eq_def .call, if_neg (hbase ▸ hb), if_neg (hone ▸ h), if_neg (hexp ▸ he),
      ← hint, hi]
    simp only [hp]
    exact .trees (.num p)
  | case7 l r hb h he a n hi hp =>
    rw [Expr.power.eq_def .call, if_neg (hbase ▸ hb), if_neg (hone ▸ h), if_neg (hexp ▸ he),
      ← hint, hi]
    simp only [hp]
    exact .trees (.pow hl hr)
  | case8 r he b e hb h hi ih =>
    cases hl with
    | binary hop _ _ => exact (hop rfl).elim
    | pow hu ha =>
      have hm := ha.product hr
      rw [Expr.power.eq_def .call, if_neg (hbase ▸ hb), if_neg (hone ▸ h), if_neg (hexp ▸ he),
        ← hint, hi]
      exact ih hu hm hu.isZero_eq (by rw [hu.isUnity_eq, hm.isZero_eq]) hm.isUnity_eq
        (hu.integerPower?_eq hm)
  | case9 r he b e hb h hi ih => cases hl
  | case10 r he l hnode hcall hb h hi =>
    rw [Expr.power.eq_def .call, if_neg (hbase ▸ hb), if_neg (hone ▸ h), if_neg (hexp ▸ he),
      ← hint, hi]
    dsimp only
    split
    · cases hl with
      | binary hop _ _ => exact (hop rfl).elim
    · cases hl with
      | pow _ _ => exact (hnode _ _ rfl).elim
    · exact .trees (.pow hl hr)

theorem applyRule {op : Operator} (hop : op ≠ .pow) (hl : Twin l l') (hr : Twin r r') :
    TwinRuns (Expr.applyRule op l r) (Expr.applyRule op l' r') := by
  cases op with
  | add => exact .trees (hl.sum hr)
  | sub => exact .trees (hl.difference hr)
  | mul => exact .trees (hl.product hr)
  | div => exact hl.quotient hr
  | pow => exact (hop rfl).elim

/-- The rules preserve twins, and so does the pass over the tree. -/
theorem reduce {t e : Expr} (h : Twin t e) : TwinRuns (Expr.reduce t) (Expr.reduce e) := by
  induction h with
  | num v => exact .trees (.num v)
  | sym name => exact .trees (.sym name)
  | binary hop _ _ ihl ihr =>
    simp only [Expr.reduce]
    exact ihl.bind fun _ _ hl => ihr.bind fun _ _ hr => hl.applyRule hop hr
  | neg _ ih =>
    simp only [Expr.reduce]
    exact ih.bind fun _ _ hx => .trees hx.negation
  | constant name =>
    by_cases hname : name = "pow"
    · subst hname
      exact .faults rfl
    · have hreduce : Expr.reduce (.call name []) = .ok (.call name []) := if_neg hname
      rw [hreduce]
      exact .trees (.constant name)
  | single hname _ ih =>
    rw [reduce_single hname, reduce_single hname]
    exact ih.bind fun _ _ hu => .trees (.single hname hu)
  | pow _ _ ihb ihe =>
    rw [reduce_power_call, Expr.reduce]
    exact ihb.bind fun _ _ hb => ihe.bind fun _ _ he => hb.power he
  | stmt _ ih =>
    simp only [Expr.reduce]
    exact ih.bind fun _ _ hx => .trees (.stmt hx)

end Twin

end Expr

open SymbolicCalculus.Expr (powersAsNodes subtrees)

/-! ## Both writings in the public operations -/

theorem simplify_powersAsNodes {e : Expr} (h : e.WellFormed)
    (hnode : ∀ b x, Expr.pow b x ∉ e.subtrees) :
    Error.outcome (simplify e.powersAsNodes) =
      Error.outcome ((simplify e).map powersAsNodes) := by
  have hruns := (Expr.Twin.of_wellFormed h hnode).reduce.outcome_eq
  have hmap : (simplify e).map powersAsNodes =
      (e.reduce.map powersAsNodes).mapError fun f => .during .simplifying (.fault f) := by
    unfold simplify
    cases e.reduce <;> rfl
  rw [hmap, Error.outcome_during, ← hruns]
  exact Error.outcome_during .simplifying _

/-- Writing the powers of a valid tree as nodes changes the derivative only in that its
powers are nodes too, and does not change the outcome of evaluation. If all powers were
calls, the same holds of the simplified tree as of the derivative. -/
theorem power_forms_alike (e : Expr) (he : validate e = .ok ()) :
    (∀ v, ∃ d, differentiate v e = .ok d ∧
      differentiate v e.powersAsNodes = .ok d.powersAsNodes) ∧
    (∀ env, Error.outcome (evaluate env e.powersAsNodes) = Error.outcome (evaluate env e)) ∧
    ((∀ b x, Expr.pow b x ∉ e.subtrees) →
      Error.outcome (simplify e.powersAsNodes) =
        Error.outcome ((simplify e).map powersAsNodes)) := by
  have h := validate_eq_ok_iff.mp he
  refine ⟨fun v => ?_, fun env => ?_, simplify_powersAsNodes h⟩
  · obtain ⟨d, hd⟩ := h.derive_defined v
    exact ⟨d, differentiate_eq_ok.mpr hd,
      differentiate_eq_ok.mpr (Expr.derive_powersAsNodes h hd)⟩
  · rw [outcome_evaluate, outcome_evaluate, Expr.value_powersAsNodes h]

/-- `2*((x^2)^y + x^(2*y))`, where the powers are flattened and then folded as like terms. -/
theorem power_forms_alike_flattened :
    let x : Expr := .sym "x"
    let y : Expr := .sym "y"
    let power (b e : Expr) : Expr := .call "pow" [b, e]
    let double : Expr := .mul (.num 2) y
    let e : Expr := .mul (.num 2) (.add (power (power x (.num 2)) y) (power x double))
    validate e = .ok () ∧ (∀ b t, Expr.pow b t ∉ e.subtrees) ∧
      Error.outcome (simplify e) = .ok (.mul (.num 4) (power x double)) ∧
      Error.outcome (simplify e.powersAsNodes) = .ok (.mul (.num 4) (.pow x double)) := by
  intro x y power double e
  have he : validate e = .ok () := rfl
  have hnode : ∀ b t, Expr.pow b t ∉ e.subtrees := by
    simp [e, power, double, x, y, Expr.subtrees, Expr.subtreesAll]
  have hsimple : simplify e = .ok (.mul (.num 4) (power x double)) := by decide
  refine ⟨he, hnode, congrArg Error.outcome hsimple, ?_⟩
  rw [(power_forms_alike e he).2.2 hnode, hsimple]
  rfl

/-- Where both writings stand in one tree, only the nodes are like terms. -/
example :
    let e : Expr := .add (.pow (.sym "x") (.num 2)) (.call "pow" [.sym "x", .num 2])
    simplify e = .ok e ∧
      simplify e.powersAsNodes = .ok (.mul (.num 2) (.pow (.sym "x") (.num 2))) := by decide

end SymbolicCalculus
