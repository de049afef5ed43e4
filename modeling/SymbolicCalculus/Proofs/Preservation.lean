import SymbolicCalculus.Proofs.Inheritance
import SymbolicCalculus.Substitute

/-!
# Well-formed trees stay well formed

On a tree that validation accepts, differentiation and substitution succeed, and
simplification stops only where an operation has no value; every tree they return is
accepted again, also after any number of passes. Of the trees that validation refuses,
differentiation takes exactly those whose only defects are empty names.
-/

set_option autoImplicit false

namespace SymbolicCalculus

namespace Expr

theorem WellFormed.isMissing_eq_false {e : Expr} (h : WellFormed e) : e.isMissing = false := by
  cases h <;> rfl

theorem hereditary_wellFormed : Hereditary WellFormed where
  num := .num
  binary op l r := by
    constructor
    · rintro ⟨⟩
      exact ⟨‹_›, ‹_›⟩
    · rintro ⟨hl, hr⟩
      exact .binary op hl hr
  neg x := by
    constructor
    · rintro ⟨⟩
      assumption
    · exact .neg
  power_call b e := by
    constructor
    · intro h
      have hdefects := h.defects_eq_nil []
      simp only [defects, resolve_pow, argumentDefects, List.append_eq_nil_iff] at hdefects
      exact ⟨wellFormed_of_defects hdefects.1, wellFormed_of_defects hdefects.2.1⟩
    · rintro ⟨hb, he⟩
      exact .pow hb he

/-! ## Simplification -/

theorem reduce_single {name : String} (hname : name ≠ "pow") (u : Expr) :
    reduce (.call name [u]) = (reduce u >>= fun u' => .ok (.call name [u'])) := by
  simp only [reduce, reduceAll, if_neg hname]
  cases reduce u <;> rfl

theorem reduce_unary (f : Unary) (u : Expr) :
    reduce (.call f.name [u]) = (reduce u >>= fun u' => .ok (.call f.name [u'])) :=
  reduce_single f.name_ne_pow u

theorem reduce_power_call (b e : Expr) :
    reduce (.call "pow" [b, e]) =
      (reduce b >>= fun b' => reduce e >>= fun e' => power .call b' e') := by
  simp only [reduce, reduceAll, if_true]
  cases reduce b with
  | error f => rfl
  | ok b => cases reduce e <;> rfl

theorem reduce_settles {e : Expr} (h : WellFormed e) : Settles WellFormed (reduce e) := by
  induction h with
  | num v => exact .tree (.num v)
  | sym h => exact .tree (.sym h)
  | binary op _ _ ihl ihr =>
    simp only [reduce]
    exact ihl.bind fun l hl => ihr.bind fun r hr => applyRule_settles op hereditary_wellFormed hl hr
  | neg _ ih =>
    simp only [reduce]
    exact ih.bind fun x hx => .tree ((negates_negation x).hereditary hereditary_wellFormed hx)
  | pi => exact .tree .pi
  | unary f _ ih =>
    rw [reduce_unary]
    exact ih.bind fun u hu => .tree (.unary f hu)
  | pow _ _ ihb ihe =>
    rw [reduce_power_call]
    exact ihb.bind fun b hb => ihe.bind fun e he => power_settles .call hereditary_wellFormed hb he
  | stmt _ ih =>
    simp only [reduce]
    exact ih.bind fun x hx => .tree (.stmt hx)

/-! ## Differentiation -/

theorem inherited_wellFormed : Inherited WellFormed where
  toHereditary := hereditary_wellFormed
  argument h := by
    cases h with
    | pi => simp
    | unary _ hu => simpa using hu
    | pow hb he => simpa using ⟨hb, he⟩
  call h hlength hargs := by
    cases h with
    | pi =>
      obtain rfl := List.length_eq_zero_iff.mp hlength.symm
      exact .pi
    | unary f _ =>
      obtain ⟨u, rfl⟩ := List.length_eq_one_iff.mp hlength.symm
      exact .unary f (hargs u (by simp))
    | pow _ _ =>
      obtain ⟨b, e, rfl⟩ := List.length_eq_two.mp hlength.symm
      exact .pow (hargs b (by simp)) (hargs e (by simp))
  apply f _ hu := .unary f hu
  body h := by
    cases h with
    | stmt hx => exact hx
  stmt _ hy := .stmt hy

theorem derive_wellFormed {v : String} {e d : Expr} (h : WellFormed e) (hd : derive v e = .ok d) :
    WellFormed d :=
  inherited_wellFormed.derive h hd

/-! ## Where differentiation succeeds -/

/-- All that is wrong is that some variables have an empty name. -/
def OnlyEmptyNames (defects : List Defect) : Prop :=
  ∀ p ∈ defects, ∃ path, p = .emptyName path

theorem onlyEmptyNames_append {first rest : List Defect} :
    OnlyEmptyNames (first ++ rest) ↔ OnlyEmptyNames first ∧ OnlyEmptyNames rest :=
  List.forall_mem_append

theorem derive_call_defined {v name : String} {args : List Expr} :
    (∃ d, derive v (.call name args) = .ok d) ↔
      (∃ application, resolve name args args = .ok application) ∧
        ∀ a ∈ args, ∃ d, derive v a = .ok d := by
  constructor
  · rintro ⟨d, hd⟩
    obtain ⟨rfl, rfl, _⟩ | ⟨f, u, du, rfl, rfl, hdu, _⟩ | ⟨b, e, db, de, rfl, rfl, hdb, hde, _⟩ :=
      derive_call hd
    · exact ⟨⟨_, resolve_pi⟩, by simp⟩
    · exact ⟨⟨_, resolve_unary f u⟩, by simp [hdu]⟩
    · exact ⟨⟨_, resolve_pow b e⟩, by simp [hdb, hde]⟩
  · rintro ⟨⟨application, hresolve⟩, hargs⟩
    obtain ⟨rfl, rfl⟩ | ⟨f, u, rfl, rfl⟩ | ⟨b, e, rfl, rfl⟩ := resolve_eq_ok hresolve
    · exact ⟨_, derive_pi.mpr rfl⟩
    · obtain ⟨du, hdu⟩ := hargs u (by simp)
      exact ⟨_, derive_unary.mpr ⟨du, hdu, rfl⟩⟩
    · obtain ⟨db, hdb⟩ := hargs b (by simp)
      obtain ⟨de, hde⟩ := hargs e (by simp)
      exact ⟨_, derive_pow.mpr ⟨db, hdb, de, hde, rfl⟩⟩

def Derivable (v : String) (e : Expr) : Prop :=
  ∃ d, derive v e = .ok d

theorem derivable_stmt {v : String} {x : Expr} : Derivable v (.stmt x) ↔ Derivable v x := by
  constructor
  · rintro ⟨d, hd⟩
    obtain ⟨dx, hdx, _⟩ := derive_stmt.mp hd
    exact ⟨dx, hdx⟩
  · rintro ⟨dx, hdx⟩
    exact ⟨_, derive_stmt.mpr ⟨dx, hdx, rfl⟩⟩

theorem inherited_derivable (v : String) : Inherited (Derivable v) where
  num _ := ⟨_, rfl⟩
  binary op l r := by
    constructor
    · rintro ⟨d, hd⟩
      obtain ⟨dl, hdl, dr, hdr, _⟩ := derive_binary.mp hd
      exact ⟨⟨dl, hdl⟩, ⟨dr, hdr⟩⟩
    · rintro ⟨⟨dl, hdl⟩, ⟨dr, hdr⟩⟩
      exact ⟨_, derive_binary.mpr ⟨dl, hdl, dr, hdr, rfl⟩⟩
  neg x := by
    constructor
    · rintro ⟨d, hd⟩
      obtain ⟨dx, hdx, _⟩ := derive_neg.mp hd
      exact ⟨dx, hdx⟩
    · rintro ⟨dx, hdx⟩
      exact ⟨_, derive_neg.mpr ⟨dx, hdx, rfl⟩⟩
  power_call b e := by
    constructor
    · rintro ⟨d, hd⟩
      obtain ⟨db, hdb, de, hde, _⟩ := derive_pow.mp hd
      exact ⟨⟨db, hdb⟩, ⟨de, hde⟩⟩
    · rintro ⟨⟨db, hdb⟩, ⟨de, hde⟩⟩
      exact ⟨_, derive_pow.mpr ⟨db, hdb, de, hde, rfl⟩⟩
  argument h := (derive_call_defined.mp h).2
  call h hlength hargs := by
    obtain ⟨⟨application, hresolve⟩, _⟩ := derive_call_defined.mp h
    refine derive_call_defined.mpr ⟨?_, hargs⟩
    obtain ⟨rfl, rfl⟩ | ⟨f, u, rfl, rfl⟩ | ⟨b, e, rfl, rfl⟩ := resolve_eq_ok hresolve
    · obtain rfl := List.length_eq_zero_iff.mp hlength.symm
      exact ⟨_, resolve_pi⟩
    · obtain ⟨u', rfl⟩ := List.length_eq_one_iff.mp hlength.symm
      exact ⟨_, resolve_unary f u'⟩
    · obtain ⟨b', e', rfl⟩ := List.length_eq_two.mp hlength.symm
      exact ⟨_, resolve_pow b' e'⟩
  apply f _ hu := by
    obtain ⟨du, hdu⟩ := hu
    exact ⟨_, derive_unary.mpr ⟨du, hdu, rfl⟩⟩
  body h := derivable_stmt.mp h
  stmt _ hy := derivable_stmt.mpr hy

theorem onlyEmptyNames_arguments {v : String} {args : List Expr} {path : Path} {index : Nat}
    (h : ∀ a ∈ args, ∀ path, (∃ d, derive v a = .ok d) ↔ OnlyEmptyNames (defects path a)) :
    (∀ a ∈ args, ∃ d, derive v a = .ok d) ↔ OnlyEmptyNames (argumentDefects path index args) := by
  induction args generalizing index with
  | nil => simp [argumentDefects, OnlyEmptyNames]
  | cons a as ih =>
    have hrest := @ih (index + 1) fun b hb => h b (by simp [hb])
    rw [argumentDefects, onlyEmptyNames_append, ← hrest, ← h a (by simp), List.forall_mem_cons]

/-- The traversal that differentiates and the one that looks for defects agree on every
tree, whatever is wrong with it. -/
theorem derive_defined_iff {v : String} {e : Expr} {path : Path} :
    (∃ d, derive v e = .ok d) ↔ OnlyEmptyNames (defects path e) := by
  induction e generalizing path with
  | missing => simp [derive, defects, OnlyEmptyNames]
  | num value => simp [derive, defects, OnlyEmptyNames]
  | sym name =>
    refine ⟨fun _ => ?_, fun _ => ⟨_, rfl⟩⟩
    by_cases hname : name = ""
    · simp [defects, OnlyEmptyNames, hname]
    · simp [defects, OnlyEmptyNames, hname]
  | binary op l r ihl ihr =>
    rw [defects, onlyEmptyNames_append, ← ihl, ← ihr]
    exact (inherited_derivable v).binary op l r
  | neg x ih =>
    rw [defects, ← ih]
    exact (inherited_derivable v).neg x
  | call name args ih =>
    have hargs : (∀ a ∈ args, ∃ d, derive v a = .ok d) ↔ OnlyEmptyNames (argumentDefects path 0 args) :=
      onlyEmptyNames_arguments fun a ha _ => ih a ha
    rw [derive_call_defined, hargs, defects]
    cases resolve name args args with
    | ok application => simp
    | error fault => simp [OnlyEmptyNames]
  | stmt x ih =>
    rw [defects, ← ih]
    exact derivable_stmt

theorem WellFormed.derive_defined {e : Expr} (h : WellFormed e) (v : String) :
    ∃ d, derive v e = .ok d := by
  rw [@derive_defined_iff v e [], h.defects_eq_nil]
  simp [OnlyEmptyNames]

/-! ## Substitution -/

theorem subst_wellFormed {v : String} {w e : Expr} (h : WellFormed e) (hw : WellFormed w) :
    WellFormed (subst v w e) := by
  induction h with
  | num n => exact .num n
  | @sym name hname =>
    rw [subst]
    split_ifs
    · exact hw
    · exact .sym hname
  | binary op _ _ ihl ihr => exact .binary op ihl ihr
  | neg _ ih => exact .neg ih
  | pi => exact .pi
  | unary f _ ih => exact .unary f ih
  | pow _ _ ihb ihe => exact .pow ihb ihe
  | stmt _ ih => exact .stmt ih

end Expr

open SymbolicCalculus.Expr

theorem substitute_of_present (v : String) {w e : Expr} (h : e.WellFormed)
    (hw : w.isMissing = false) : substitute v w e = .ok (subst v w e) := by
  have hvalid : validate e = .ok () := validate_eq_ok_iff.mpr h
  unfold substitute
  rw [h.isMissing_eq_false, hw, hvalid]
  rfl

theorem substitute_of_wellFormed (v : String) {w e : Expr} (h : e.WellFormed) (hw : w.WellFormed) :
    substitute v w e = .ok (subst v w e) :=
  substitute_of_present v h hw.isMissing_eq_false

/-! ## Passes -/

def EndsValid : Except Error Expr → Prop
  | .ok s => validate s = .ok ()
  | .error err => err.kind? = some .divisionByZero ∨ err.kind? = some .indeterminateForm

theorem simplify_endsValid {e : Expr} (h : e.WellFormed) : EndsValid (simplify e) := by
  have hsettles := reduce_settles h
  unfold simplify
  generalize e.reduce = x at hsettles
  cases hsettles with
  | tree hs => exact validate_eq_ok_iff.mpr hs
  | undefined hf => exact hf.imp (congrArg some) (congrArg some)

theorem differentiateSimplify_endsValid (v : String) {e : Expr} (h : e.WellFormed) :
    EndsValid (differentiateSimplify v e) := by
  obtain ⟨d, hd⟩ := h.derive_defined v
  unfold differentiateSimplify
  rw [differentiate_eq_ok.mpr hd]
  exact simplify_endsValid (derive_wellFormed h hd)

theorem passes_endsValid (v : String) (n : Nat) {e : Expr} (h : e.WellFormed) (done : Nat) :
    EndsValid (passes v done n e) := by
  induction n generalizing e done with
  | zero => exact validate_eq_ok_iff.mpr h
  | succ n ih =>
    have hpass := differentiateSimplify_endsValid v h
    rw [passes]
    cases hd : differentiateSimplify v e with
    | error err =>
      rw [hd] at hpass
      exact hpass
    | ok d =>
      rw [hd] at hpass
      exact ih (validate_eq_ok_iff.mp hpass) (done + 1)

/-! ## What validation reports -/

def reportedDefects (e : Expr) : List Defect :=
  match validate e with
  | .error (.defects first rest) => first :: rest
  | _ => []

theorem validate_of_ne_missing {e : Expr} (he : e ≠ .missing) :
    validate e =
      match e.defects [] with
      | [] => .ok ()
      | first :: rest => .error (.defects first rest) := by
  cases e with
  | missing => exact (he rfl).elim
  | _ => rfl

theorem reportedDefects_eq {e : Expr} (he : e ≠ .missing) : reportedDefects e = e.defects [] := by
  rw [reportedDefects, validate_of_ne_missing he]
  cases e.defects [] <;> rfl

/-- After validation nothing fails for structural reasons: derivatives and substitutions
exist and are valid, simplification and higher derivatives are valid unless something has
no value. Conversely a tree has a derivative exactly if all that validation has against it
is empty variable names. -/
theorem validated_engines (v : String) :
    (∀ e, validate e = .ok () →
      (∃ d, differentiate v e = .ok d ∧ validate d = .ok ()) ∧
      EndsValid (simplify e) ∧
      (∀ w, validate w = .ok () → ∃ s, substitute v w e = .ok s ∧ validate s = .ok ()) ∧
      ∀ n : Int, 0 ≤ n → EndsValid (differentiateTimes v n e)) ∧
    ∀ e, e ≠ .missing →
      ((∃ d, differentiate v e = .ok d) ↔ OnlyEmptyNames (reportedDefects e)) := by
  constructor
  · intro e hvalid
    have h := validate_eq_ok_iff.mp hvalid
    refine ⟨?_, simplify_endsValid h, ?_, ?_⟩
    · obtain ⟨d, hd⟩ := h.derive_defined v
      exact ⟨d, differentiate_eq_ok.mpr hd, validate_eq_ok_iff.mpr (derive_wellFormed h hd)⟩
    · intro w hw
      have hvalue := validate_eq_ok_iff.mp hw
      exact ⟨_, substitute_of_wellFormed v h hvalue,
        validate_eq_ok_iff.mpr (subst_wellFormed h hvalue)⟩
    · intro n hn
      rw [differentiateTimes, if_neg (by omega), if_neg (by simp [h.isMissing_eq_false])]
      exact passes_endsValid v n.toNat h 0
  · intro e he
    simp only [differentiate_eq_ok, reportedDefects_eq he]
    exact derive_defined_iff

/-- `0/x` validates and has a third derivative; `1/(x-x)` validates and has no value; a sum
with an empty name and no other defect has a derivative. -/
theorem validated_engines_cases :
    EndsValid (differentiateTimes "x" 3 (.div (.num 0) (.sym "x"))) ∧
      EndsValid (simplify (.div (.num 1) (.sub (.sym "x") (.sym "x")))) ∧
      (∃ d, differentiate "x" (.add (.sym "") (.sym "x")) = .ok d) := by
  have h := validated_engines "x"
  refine ⟨(h.1 _ rfl).2.2.2 3 (by decide), (h.1 _ rfl).2.1, (h.2 _ (by simp)).mpr ?_⟩
  intro p hp
  exact ⟨[.left], by simpa [reportedDefects, validate, Expr.defects] using hp⟩

end SymbolicCalculus
