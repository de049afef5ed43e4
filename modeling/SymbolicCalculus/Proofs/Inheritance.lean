import SymbolicCalculus.Proofs.Derivation
import SymbolicCalculus.Proofs.Hereditary

/-!
# Properties that both engines pass on

A hereditary property is inherited when it also passes from a call to its arguments and
back to a call of the same name with as many arguments, likewise for a statement, and
holds of every function of the vocabulary applied to an argument that has it. What
simplification and differentiation return then has the property if their operand has it.
Nothing is assumed of variables, which both engines copy or drop.
-/

set_option autoImplicit false

namespace SymbolicCalculus

namespace Expr

structure Inherited (P : Expr → Prop) : Prop extends Hereditary P where
  argument {name : String} {args : List Expr} (h : P (.call name args)) : ∀ a ∈ args, P a
  call {name : String} {args args' : List Expr} (h : P (.call name args))
    (hlength : args.length = args'.length) (hargs : ∀ a ∈ args', P a) : P (.call name args')
  apply (f : Unary) {u : Expr} (hu : P u) : P (.call f.name [u])
  body {x : Expr} (h : P (.stmt x)) : P x
  stmt {x y : Expr} (h : P (.stmt x)) (hy : P y) : P (.stmt y)

namespace Inherited

variable {P Q : Expr → Prop}

theorem and (hP : Inherited P) (hQ : Inherited Q) : Inherited fun e => P e ∧ Q e where
  num v := ⟨hP.num v, hQ.num v⟩
  binary op l r := by
    rw [hP.binary, hQ.binary]
    exact and_and_and_comm
  neg x := by rw [hP.neg, hQ.neg]
  power_call b e := by
    rw [hP.power_call, hQ.power_call]
    exact and_and_and_comm
  argument h a ha := ⟨hP.argument h.1 a ha, hQ.argument h.2 a ha⟩
  call h hlength hargs :=
    ⟨hP.call h.1 hlength fun a ha => (hargs a ha).1, hQ.call h.2 hlength fun a ha => (hargs a ha).2⟩
  apply f _ hu := ⟨hP.apply f hu.1, hQ.apply f hu.2⟩
  body h := ⟨hP.body h.1, hQ.body h.2⟩
  stmt h hy := ⟨hP.stmt h.1 hy.1, hQ.stmt h.2 hy.2⟩

theorem of_iff (hP : Inherited P) (h : ∀ e, P e ↔ Q e) : Inherited Q := by
  obtain rfl : P = Q := funext fun e => propext (h e)
  exact hP

/-! ## Simplification -/

theorem reduce (hP : Inherited P) {e s : Expr} (h : P e) (hs : Expr.reduce e = .ok s) : P s := by
  induction e generalizing s with
  | missing => cases hs
  | num v => cases hs; exact h
  | sym name => cases hs; exact h
  | binary op l r ihl ihr =>
    obtain ⟨hl, hr⟩ := (hP.binary op l r).mp h
    obtain ⟨l', hl', r', hr', happly⟩ := reduce_binary.mp hs
    have hsettles := applyRule_settles op hP.toHereditary (ihl hl hl') (ihr hr hr')
    rw [happly] at hsettles
    exact hsettles.of_ok
  | neg x ih =>
    obtain ⟨x', hx', rfl⟩ := reduce_neg.mp hs
    exact (negates_negation x').hereditary hP.toHereditary (ih ((hP.neg x).mp h) hx')
  | call name args ih =>
    obtain ⟨reduced, hreduced, hshape⟩ := reduce_call.mp hs
    have hargs := forall_reduced hreduced fun a ha a' => ih a ha (hP.argument h a ha)
    rcases hshape with ⟨_, rfl⟩ | ⟨_, b, e, rfl, hpower⟩
    · exact hP.call h hreduced.length_eq hargs
    · have hsettles :=
        power_settles .call hP.toHereditary (hargs b (by simp)) (hargs e (by simp))
      rw [hpower] at hsettles
      exact hsettles.of_ok
  | stmt x ih =>
    obtain ⟨x', hx', rfl⟩ := reduce_stmt.mp hs
    exact hP.stmt h (ih (hP.body h) hx')

/-! ## Differentiation -/

section
variable {u : Expr}

theorem square (hP : Inherited P) (hu : P u) : P u.square :=
  (hP.binary .pow u (.num 2)).mpr ⟨hu, hP.num 2⟩

theorem reciprocal (hP : Inherited P) (hu : P u) : P u.reciprocal :=
  (hP.binary .div (.num 1) u).mpr ⟨hP.num 1, hu⟩

theorem outer (hP : Inherited P) (f : Unary) (hu : P u) : P (f.outer u) := by
  have hop (op : Operator) {l r : Expr} (hl : P l) (hr : P r) : P (.binary op l r) :=
    (hP.binary op l r).mpr ⟨hl, hr⟩
  have hone : P (.num 1) := hP.num 1
  cases f with
  | sin => exact hP.apply .cos hu
  | cos => exact (hP.neg _).mpr (hP.apply .sin hu)
  | tan => exact hP.reciprocal (hP.square (hP.apply .cos hu))
  | asin => exact hP.reciprocal (hP.apply .sqrt (hop .sub hone (hP.square hu)))
  | acos => exact (hP.neg _).mpr (hP.reciprocal (hP.apply .sqrt (hop .sub hone (hP.square hu))))
  | atan => exact hP.reciprocal (hop .add hone (hP.square hu))
  | sinh => exact hP.apply .cosh hu
  | cosh => exact hP.apply .sinh hu
  | tanh => exact hP.reciprocal (hP.square (hP.apply .cosh hu))
  | asinh => exact hP.reciprocal (hP.apply .sqrt (hop .add (hP.square hu) hone))
  | acosh => exact hP.reciprocal (hP.apply .sqrt (hop .sub (hP.square hu) hone))
  | atanh => exact hP.reciprocal (hop .sub hone (hP.square hu))
  | exp => exact hP.apply .exp hu
  | expm1 => exact hP.apply .exp hu
  | log => exact hP.reciprocal hu
  | log10 => exact hP.reciprocal (hop .mul hu (hP.apply .log (hP.num 10)))
  | log1p => exact hP.reciprocal (hop .add hone hu)
  | sqrt => exact hP.reciprocal (hop .mul (hP.num 2) (hP.apply .sqrt hu))

end

theorem powerRule (hP : Inherited P) (form : PowerForm) (v : String) {b e db de : Expr}
    (hb : P b) (he : P e) (hdb : P db) (hde : P de) : P (Expr.powerRule form v b e db de) := by
  have hlower : P (form.build b (.sub e (.num 1))) :=
    (hP.build form _ _).mpr ⟨hb, (hP.binary .sub _ _).mpr ⟨he, hP.num 1⟩⟩
  have hplain : P (.mul (.mul e (form.build b (.sub e (.num 1)))) db) :=
    (hP.binary .mul _ _).mpr ⟨(hP.binary .mul _ _).mpr ⟨he, hlower⟩, hdb⟩
  have hlog : P (.mul (form.build b e) (.call "log" [b])) :=
    (hP.binary .mul _ _).mpr ⟨(hP.build form _ _).mpr ⟨hb, he⟩, hP.apply .log hb⟩
  unfold Expr.powerRule
  split_ifs
  · exact (hP.binary .add _ _).mpr ⟨hplain, (hP.binary .mul _ _).mpr ⟨hlog, hde⟩⟩
  · exact hplain

theorem operatorRule (hP : Inherited P) (op : Operator) (v : String) {l r dl dr : Expr}
    (hl : P l) (hr : P r) (hdl : P dl) (hdr : P dr) : P (Expr.operatorRule op v l r dl dr) := by
  have hleft : P (.mul dl r) := (hP.binary .mul _ _).mpr ⟨hdl, hr⟩
  have hright : P (.mul l dr) := (hP.binary .mul _ _).mpr ⟨hl, hdr⟩
  cases op with
  | add => exact (hP.binary .add _ _).mpr ⟨hdl, hdr⟩
  | sub => exact (hP.binary .sub _ _).mpr ⟨hdl, hdr⟩
  | mul => exact (hP.binary .add _ _).mpr ⟨hleft, hright⟩
  | div =>
    exact (hP.binary .div _ _).mpr ⟨(hP.binary .sub _ _).mpr ⟨hleft, hright⟩, hP.square hr⟩
  | pow => exact hP.powerRule .node v hl hr hdl hdr

theorem derive (hP : Inherited P) {v : String} {e d : Expr} (h : P e)
    (hd : Expr.derive v e = .ok d) : P d := by
  induction e generalizing d with
  | missing => cases hd
  | num _ => cases hd; exact hP.num 0
  | sym _ => cases hd; exact hP.num _
  | binary op l r ihl ihr =>
    obtain ⟨hl, hr⟩ := (hP.binary op l r).mp h
    obtain ⟨dl, hdl, dr, hdr, rfl⟩ := derive_binary.mp hd
    exact hP.operatorRule op v hl hr (ihl hl hdl) (ihr hr hdr)
  | neg x ih =>
    obtain ⟨dx, hdx, rfl⟩ := derive_neg.mp hd
    exact (hP.neg dx).mpr (ih ((hP.neg x).mp h) hdx)
  | call name args ih =>
    have hargs := hP.argument h
    obtain ⟨_, _, rfl⟩ | ⟨f, u, du, _, rfl, hdu, rfl⟩ | ⟨b, e, db, de, _, rfl, hdb, hde, rfl⟩ :=
      derive_call hd
    · exact hP.num 0
    · have hu := hargs u (by simp)
      exact (hP.binary .mul _ _).mpr ⟨hP.outer f hu, ih u (by simp) hu hdu⟩
    · have hb := hargs b (by simp)
      have he := hargs e (by simp)
      exact hP.powerRule .call v hb he (ih b (by simp) hb hdb) (ih e (by simp) he hde)
  | stmt x ih =>
    obtain ⟨dx, hdx, rfl⟩ := derive_stmt.mp hd
    exact hP.stmt h (ih (hP.body h) hdx)

end Inherited

end Expr

end SymbolicCalculus
