import SymbolicCalculus.Error

/-!
# Well-formed trees

A tree is well formed when nothing is missing in it, no variable has an empty name
and every call is one of the three shapes of the vocabulary. Validation accepts
exactly the well-formed trees. Proofs about them go by induction on
`Expr.WellFormed`, which has no case for a call that does not fit.
-/

set_option autoImplicit false

namespace SymbolicCalculus

/-! ## Names of functions -/

theorem Function.ofName?_name (f : Function) : Function.ofName? f.name = some f := by
  cases f with
  | unary g => cases g <;> rfl
  | pi => rfl
  | pow => rfl

theorem Function.name_of_ofName? {name : String} {f : Function}
    (h : Function.ofName? name = some f) : f.name = name := by
  simpa using List.find?_some h

theorem Unary.name_ne_pow (f : Unary) : f.name ≠ "pow" := by
  cases f <;> decide

namespace Expr

section
variable {α : Type} {args : List Expr}

@[simp] theorem resolve_pi : resolve "pi" args ([] : List α) = .ok .pi := rfl

@[simp] theorem resolve_unary (f : Unary) (u : α) : resolve f.name args [u] = .ok (.unary f u) := by
  have h : Function.ofName? f.name = some (.unary f) := Function.ofName?_name (.unary f)
  simp only [resolve, h, Function.apply?]

@[simp] theorem resolve_pow (b e : α) : resolve "pow" args [b, e] = .ok (.pow b e) := rfl

theorem missingIndex_eq_none_iff {start : Nat} :
    missingIndex start args = none ↔ ∀ a ∈ args, a.isMissing = false := by
  induction args generalizing start with
  | nil => simp [missingIndex]
  | cons a as ih =>
    cases ha : a.isMissing with
    | true => simp [missingIndex, ha]
    | false => simp [missingIndex, ha, ih]

theorem resolveGiven_eq_ok {name : String} {given : List α} {application : Application α} :
    resolveGiven name args given = .ok application ↔
      resolve name args given = .ok application ∧ ∀ a ∈ args, a.isMissing = false := by
  rw [← @missingIndex_eq_none_iff args 0]
  unfold resolveGiven
  cases resolve name args given with
  | error fault => simp [bind, Except.bind]
  | ok application' =>
    cases missingIndex 0 args with
    | none => simp [bind, Except.bind]
    | some index => simp [bind, Except.bind]

theorem resolve_eq_ok {name : String} {given : List α} {application : Application α}
    (h : resolve name args given = .ok application) :
    (name = "pi" ∧ given = []) ∨ (∃ (f : Unary) (u : α), name = f.name ∧ given = [u]) ∨
      (∃ b e : α, name = "pow" ∧ given = [b, e]) := by
  unfold resolve at h
  cases hf : Function.ofName? name with
  | none => simp [hf] at h
  | some f =>
    have hname := Function.name_of_ofName? hf
    simp only [hf] at h
    cases ha : f.apply? given with
    | none => simp [ha] at h
    | some application' =>
      unfold Function.apply? at ha
      split at ha
      · exact Or.inl ⟨hname.symm, rfl⟩
      · next g u => exact Or.inr (Or.inl ⟨g, u, hname.symm, rfl⟩)
      · next b e => exact Or.inr (Or.inr ⟨b, e, hname.symm, rfl⟩)
      · cases ha

end

/-! ## Well-formedness -/

inductive WellFormed : Expr → Prop
  | num (v : Int64) : WellFormed (.num v)
  | sym {name : String} (h : name ≠ "") : WellFormed (.sym name)
  | binary (op : Operator) {l r : Expr} (hl : WellFormed l) (hr : WellFormed r) :
      WellFormed (.binary op l r)
  | neg {x : Expr} (hx : WellFormed x) : WellFormed (.neg x)
  | pi : WellFormed (.call "pi" [])
  | unary (f : Unary) {u : Expr} (hu : WellFormed u) : WellFormed (.call f.name [u])
  | pow {b e : Expr} (hb : WellFormed b) (he : WellFormed e) : WellFormed (.call "pow" [b, e])
  | stmt {x : Expr} (hx : WellFormed x) : WellFormed (.stmt x)

theorem WellFormed.ne_missing {e : Expr} (h : WellFormed e) : e ≠ .missing := by
  rintro rfl
  cases h

theorem WellFormed.defects_eq_nil {e : Expr} (h : WellFormed e) (path : Path) :
    defects path e = [] := by
  induction h generalizing path with
  | num v => simp [defects]
  | sym h => simp [defects, h]
  | binary op _ _ ihl ihr => simp [defects, ihl, ihr]
  | neg _ ih => simp [defects, ih]
  | pi => simp [defects, argumentDefects]
  | unary f _ ih => simp [defects, argumentDefects, ih]
  | pow _ _ ihb ihe => simp [defects, argumentDefects, ihb, ihe]
  | stmt _ ih => simp [defects, ih]

theorem argumentDefects_eq_nil {args : List Expr} {path : Path} {index : Nat}
    (h : argumentDefects path index args = []) :
    ∀ a ∈ args, ∃ path', defects path' a = [] := by
  induction args generalizing index with
  | nil => simp
  | cons b bs ih =>
    simp only [argumentDefects, List.append_eq_nil_iff] at h
    intro a ha
    rcases List.mem_cons.mp ha with rfl | ha
    · exact ⟨_, h.1⟩
    · exact ih h.2 a ha

theorem wellFormed_of_defects {e : Expr} {path : Path} (h : defects path e = []) :
    WellFormed e := by
  induction e generalizing path with
  | missing => simp [defects] at h
  | num v => exact .num v
  | sym name =>
    refine .sym fun hname => ?_
    simp [defects, hname] at h
  | binary op l r ihl ihr =>
    simp only [defects, List.append_eq_nil_iff] at h
    exact .binary op (ihl h.1) (ihr h.2)
  | neg x ih => exact .neg (ih (by simpa [defects] using h))
  | call name args ih =>
    simp only [defects] at h
    cases hr : resolve name args args with
    | error fault => simp [hr] at h
    | ok application =>
      simp only [hr] at h
      have hargs : ∀ a ∈ args, WellFormed a := by
        intro a ha
        obtain ⟨path', hp⟩ := argumentDefects_eq_nil h a ha
        exact ih a ha hp
      rcases resolve_eq_ok hr with ⟨rfl, rfl⟩ | ⟨f, u, rfl, rfl⟩ | ⟨b, e, rfl, rfl⟩
      · exact .pi
      · exact .unary f (hargs u (by simp))
      · exact .pow (hargs b (by simp)) (hargs e (by simp))
  | stmt x ih => exact .stmt (ih (by simpa [defects] using h))

theorem defects_eq_nil_iff {e : Expr} {path : Path} : defects path e = [] ↔ WellFormed e :=
  ⟨wellFormed_of_defects, fun h => h.defects_eq_nil path⟩

end Expr

theorem validate_eq_ok_iff {e : Expr} : validate e = .ok () ↔ e.WellFormed := by
  rw [← @Expr.defects_eq_nil_iff e []]
  cases e with
  | missing => simp [validate, Expr.defects]
  | _ =>
    simp only [validate]
    split
    · next h => simp [h]
    · next h => simp [h]

end SymbolicCalculus
