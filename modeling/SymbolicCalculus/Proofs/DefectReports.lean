import SymbolicCalculus.Proofs.DecimalText
import SymbolicCalculus.Proofs.Preservation

/-!
# Every defect is reported once

A tree is addressed by the steps from its root. What is wrong with the node at an address
is said without regard to the rest of the tree. Validation lists the addresses at which
something is wrong, no other and none twice, in the order in which a reader meets them: a
node before its children, and the children from left to right.
-/

set_option autoImplicit false

namespace SymbolicCalculus

/-! ## Addresses -/

def Step.position : Step → ℕ
  | .left => 0
  | .right => 1
  | .inner => 0
  | .argument i => i

/-- The positions on the way from the root. Compared as lists, a node comes before all
that is below it and a child before what is to its right. -/
def Path.positions (path : Path) : List ℕ :=
  path.reverse.map Step.position

theorem Path.positions_cons (step : Step) (path : Path) :
    Path.positions (step :: path) = path.positions ++ [step.position] := by
  simp [positions]

namespace Expr

def child? : Step → Expr → Option Expr
  | .left, .binary _ l _ => some l
  | .right, .binary _ _ r => some r
  | .inner, .neg x => some x
  | .inner, .stmt x => some x
  | .argument i, .call _ args => args[i]?
  | _, _ => none

def follow : List Step → Expr → Option Expr
  | [], e => some e
  | step :: route, e => (e.child? step).bind (follow route)

theorem exists_follow {P : List Step → Expr → Prop} {e : Expr} :
    (∃ route t, e.follow route = some t ∧ P route t) ↔
      P [] e ∨ ∃ step c, e.child? step = some c ∧
        ∃ route t, c.follow route = some t ∧ P (step :: route) t := by
  constructor
  · rintro ⟨route, t, ht, hP⟩
    cases route with
    | nil =>
      cases ht
      exact Or.inl hP
    | cons step route =>
      obtain ⟨c, hc, ht⟩ := Option.bind_eq_some_iff.mp ht
      exact Or.inr ⟨step, c, hc, route, t, ht, hP⟩
  · rintro (hP | ⟨step, c, hc, route, t, ht, hP⟩)
    · exact ⟨[], e, rfl, hP⟩
    · exact ⟨step :: route, t, Option.bind_eq_some_iff.mpr ⟨c, hc, ht⟩, hP⟩

section
variable {step : Step} {c : Expr}

theorem child?_binary {op : Operator} {l r : Expr} :
    (binary op l r).child? step = some c ↔ (step = .left ∧ l = c) ∨ (step = .right ∧ r = c) := by
  cases step <;> simp [child?]

theorem child?_neg {x : Expr} : (neg x).child? step = some c ↔ step = .inner ∧ x = c := by
  cases step <;> simp [child?]

theorem child?_stmt {x : Expr} : (stmt x).child? step = some c ↔ step = .inner ∧ x = c := by
  cases step <;> simp [child?]

theorem child?_call {name : String} {args : List Expr} :
    (call name args).child? step = some c ↔ ∃ i, step = .argument i ∧ args[i]? = some c := by
  cases step <;> simp [child?]

end

/-! ## One node -/

/-- Something is wrong with a node taken by itself, and the kind under which it counts. -/
inductive Flawed : Expr → Kind → Prop
  | missing : Flawed .missing .missingOperand
  | unnamed : Flawed (.sym "") .unsupportedNode
  | unknown {name : String} {args : List Expr} (h : ∀ f : Function, f.name ≠ name) :
      Flawed (.call name args) .unsupportedNode
  | tooMany (f : Function) {args : List Expr} (h : f.arity < args.length) :
      Flawed (.call f.name args) .unsupportedNode
  | tooFew (f : Function) {args : List Expr} (h : args.length < f.arity) :
      Flawed (.call f.name args) .missingOperand

/-- What validation has against a node taken by itself. -/
def ownDefect? (path : Path) : Expr → Option Defect
  | .missing => some (.missingOperand path)
  | .sym name => if name = "" then some (.emptyName path) else none
  | .call name args =>
    match resolve name args args with
    | .ok _ => none
    | .error fault => some (.badCall path fault)
  | _ => none

end Expr

theorem Function.apply?_eq_none_iff {α : Type} {f : Function} {given : List α} :
    f.apply? given = none ↔ given.length ≠ f.arity := by
  rcases given with _ | ⟨a, _ | ⟨b, _ | ⟨c, rest⟩⟩⟩
  all_goals cases f <;> simp [arity, Function.apply?]

namespace Expr

/-- The calls that do not fit the vocabulary, and the two ways in which they do not. -/
theorem resolve_eq_error {name : String} {args : List Expr} {fault : Fault} :
    resolve name args args = .error fault ↔
      ((∀ f : Function, f.name ≠ name) ∧ fault = ⟨.unknownFunction name, .call name args⟩) ∨
      ∃ f : Function, f.name = name ∧ args.length ≠ f.arity ∧
        fault = ⟨.wrongArity f args.length, .call name args⟩ := by
  unfold resolve
  cases hf : Function.ofName? name with
  | none =>
    have hunknown (f : Function) : f.name ≠ name := by
      rintro rfl
      rw [Function.ofName?_name] at hf
      cases hf
    simp [hunknown, eq_comm]
  | some f =>
    have hname := Function.name_of_ofName? hf
    have hunique (g : Function) (hg : g.name = name) : g = f := by
      rw [← hg, Function.ofName?_name] at hf
      exact Option.some.inj hf
    simp only
    cases happly : f.apply? args with
    | none =>
      have hlength := Function.apply?_eq_none_iff.mp happly
      constructor
      · rintro ⟨⟩
        exact Or.inr ⟨f, hname, hlength, rfl⟩
      · rintro (⟨hunknown, _⟩ | ⟨g, hg, _, rfl⟩)
        · exact (hunknown f hname).elim
        · rw [hunique g hg]
    | some application =>
      constructor
      · rintro ⟨⟩
      · rintro (⟨hunknown, _⟩ | ⟨g, hg, hlength, _⟩)
        · exact (hunknown f hname).elim
        · rw [hunique g hg, ← Function.apply?_eq_none_iff, happly] at hlength
          cases hlength

theorem ownDefect?_eq_some {path : Path} {t : Expr} {d : Defect}
    (h : ownDefect? path t = some d) : d.path = path ∧ d.subject = t ∧ Flawed t d.kind := by
  cases t with
  | missing =>
    cases h
    exact ⟨rfl, rfl, .missing⟩
  | sym name =>
    rw [ownDefect?] at h
    split_ifs at h with hname
    cases h
    subst hname
    exact ⟨rfl, rfl, .unnamed⟩
  | call name args =>
    rw [ownDefect?] at h
    split at h
    · cases h
    · next fault hresolve =>
      cases h
      obtain ⟨hunknown, rfl⟩ | ⟨f, rfl, hlength, rfl⟩ := resolve_eq_error.mp hresolve
      · exact ⟨rfl, rfl, .unknown hunknown⟩
      · refine ⟨rfl, rfl, ?_⟩
        show Flawed (.call f.name args) (Cause.wrongArity f args.length).kind
        rw [Cause.kind]
        split_ifs with hfew
        · exact .tooFew f hfew
        · exact .tooMany f (by omega)
  | _ => cases h

theorem Flawed.exists_ownDefect {t : Expr} {kind : Kind} (h : Flawed t kind) (path : Path) :
    ∃ d, ownDefect? path t = some d ∧ d.kind = kind := by
  have hcall {name : String} {args : List Expr} {fault : Fault}
      (hresolve : resolve name args args = .error fault) :
      ownDefect? path (.call name args) = some (.badCall path fault) := by
    rw [ownDefect?, hresolve]
  cases h with
  | missing => exact ⟨_, rfl, rfl⟩
  | unnamed => exact ⟨.emptyName path, by simp [ownDefect?], rfl⟩
  | unknown hunknown => exact ⟨_, hcall (resolve_eq_error.mpr (Or.inl ⟨hunknown, rfl⟩)), rfl⟩
  | tooMany f hmany =>
    refine ⟨_, hcall (resolve_eq_error.mpr (Or.inr ⟨f, rfl, by omega, rfl⟩)), ?_⟩
    exact if_neg (by omega)
  | tooFew f hfew =>
    exact ⟨_, hcall (resolve_eq_error.mpr (Or.inr ⟨f, rfl, by omega, rfl⟩)), if_pos hfew⟩

/-! ## Which defects are listed -/

theorem mem_argumentDefects {path : Path} {index : ℕ} {args : List Expr} {d : Defect} :
    d ∈ argumentDefects path index args ↔
      ∃ i c, args[i]? = some c ∧ d ∈ defects (.argument (index + i) :: path) c := by
  induction args generalizing index with
  | nil => simp [argumentDefects]
  | cons a as ih =>
    rw [argumentDefects, List.mem_append, ih]
    constructor
    · rintro (hd | ⟨i, c, hc, hd⟩)
      · exact ⟨0, a, rfl, hd⟩
      · exact ⟨i + 1, c, hc, by rwa [← Nat.add_assoc, Nat.add_right_comm]⟩
    · rintro ⟨i, c, hc, hd⟩
      cases i with
      | zero =>
        cases hc
        exact Or.inl hd
      | succ i => exact Or.inr ⟨i, c, hc, by rwa [Nat.add_right_comm, Nat.add_assoc]⟩

/-- The defects of a tree are those of its nodes. -/
theorem mem_defects {path : Path} {e : Expr} {d : Defect} :
    d ∈ defects path e ↔
      ∃ route t, e.follow route = some t ∧ ownDefect? (route.reverse ++ path) t = some d := by
  induction e generalizing path with
  | missing => rw [exists_follow]; simp [defects, ownDefect?, child?, eq_comm]
  | num v => rw [exists_follow]; simp [defects, ownDefect?, child?]
  | sym name =>
    rw [exists_follow, defects, ownDefect?]
    split_ifs <;> simp [child?, eq_comm]
  | binary op l r ihl ihr =>
    rw [exists_follow, defects, List.mem_append, ihl, ihr]
    simp only [child?_binary, ownDefect?, List.reverse_cons, List.append_assoc,
      List.singleton_append]
    constructor
    · rintro (h | h)
      · exact Or.inr ⟨.left, l, Or.inl ⟨rfl, rfl⟩, h⟩
      · exact Or.inr ⟨.right, r, Or.inr ⟨rfl, rfl⟩, h⟩
    · rintro (⟨⟨⟩⟩ | ⟨_, _, ⟨rfl, rfl⟩ | ⟨rfl, rfl⟩, h⟩)
      · exact Or.inl h
      · exact Or.inr h
  | neg x ih =>
    rw [exists_follow, defects, ih]
    simp only [child?_neg, ownDefect?, List.reverse_cons, List.append_assoc,
      List.singleton_append]
    constructor
    · intro h
      exact Or.inr ⟨.inner, x, ⟨rfl, rfl⟩, h⟩
    · rintro (⟨⟨⟩⟩ | ⟨_, _, ⟨rfl, rfl⟩, h⟩)
      exact h
  | call name args ih =>
    have hargs : d ∈ argumentDefects path 0 args ↔
        ∃ step c, (call name args).child? step = some c ∧
          ∃ route t, c.follow route = some t ∧
            ownDefect? ((step :: route).reverse ++ path) t = some d := by
      simp only [mem_argumentDefects, child?_call, Nat.zero_add, List.reverse_cons,
        List.append_assoc, List.singleton_append]
      constructor
      · rintro ⟨i, c, hc, hd⟩
        exact ⟨.argument i, c, ⟨i, rfl, hc⟩, (ih c (List.mem_of_getElem? hc)).mp hd⟩
      · rintro ⟨_, c, ⟨i, rfl, hc⟩, hd⟩
        exact ⟨i, c, hc, (ih c (List.mem_of_getElem? hc)).mpr hd⟩
    rw [exists_follow, ← hargs, defects, ownDefect?]
    cases resolve name args args with
    | ok application => simp
    | error fault => simp [eq_comm]
  | stmt x ih =>
    rw [exists_follow, defects, ih]
    simp only [child?_stmt, ownDefect?, List.reverse_cons, List.append_assoc,
      List.singleton_append]
    constructor
    · intro h
      exact Or.inr ⟨.inner, x, ⟨rfl, rfl⟩, h⟩
    · rintro (⟨⟨⟩⟩ | ⟨_, _, ⟨rfl, rfl⟩, h⟩)
      exact h

/-! ## In which order -/

def Precedes (a b : Defect) : Prop :=
  a.path.positions < b.path.positions

theorem positions_of_mem {path : Path} {e : Expr} {d : Defect} (h : d ∈ defects path e) :
    ∃ rest, d.path.positions = path.positions ++ rest := by
  obtain ⟨route, t, _, hown⟩ := mem_defects.mp h
  obtain ⟨hpath, _⟩ := ownDefect?_eq_some hown
  exact ⟨route.map Step.position, by simp [hpath, Path.positions]⟩

theorem positions_of_child {path : Path} {step : Step} {e : Expr} {d : Defect}
    (h : d ∈ defects (step :: path) e) :
    ∃ rest, d.path.positions = path.positions ++ step.position :: rest := by
  obtain ⟨rest, hrest⟩ := positions_of_mem h
  exact ⟨rest, by rw [hrest, Path.positions_cons, List.append_assoc, List.singleton_append]⟩

theorem precedes_of_position {path : Path} {a b : Defect} {i j : ℕ} {s t : List ℕ}
    (ha : a.path.positions = path.positions ++ i :: s)
    (hb : b.path.positions = path.positions ++ j :: t) (hij : i < j) : Precedes a b := by
  unfold Precedes
  rw [ha, hb]
  exact List.append_left_lt (List.cons_lt_cons_iff.mpr (Or.inl hij))

theorem pairwise_argumentDefects {path : Path} {index : ℕ} {args : List Expr}
    (h : ∀ a ∈ args, ∀ path, (defects path a).Pairwise Precedes) :
    (argumentDefects path index args).Pairwise Precedes := by
  induction args generalizing index with
  | nil => exact .nil
  | cons a as ih =>
    rw [argumentDefects]
    refine List.pairwise_append.mpr
      ⟨h a (by simp) _, ih fun b hb => h b (by simp [hb]), fun x hx y hy => ?_⟩
    obtain ⟨s, hs⟩ := positions_of_child hx
    obtain ⟨i, c, _, hy⟩ := mem_argumentDefects.mp hy
    obtain ⟨t, ht⟩ := positions_of_child hy
    exact precedes_of_position hs ht (by simp only [Step.position]; omega)

theorem pairwise_defects (path : Path) (e : Expr) : (defects path e).Pairwise Precedes := by
  induction e generalizing path with
  | missing => exact List.pairwise_singleton _ _
  | num v => exact .nil
  | sym name =>
    rw [defects]
    split_ifs
    · exact List.pairwise_singleton _ _
    · exact .nil
  | binary op l r ihl ihr =>
    rw [defects]
    refine List.pairwise_append.mpr ⟨ihl _, ihr _, fun x hx y hy => ?_⟩
    obtain ⟨s, hs⟩ := positions_of_child hx
    obtain ⟨t, ht⟩ := positions_of_child hy
    exact precedes_of_position hs ht (by decide)
  | neg x ih => exact ih _
  | call name args ih =>
    have hargs : (argumentDefects path 0 args).Pairwise Precedes :=
      pairwise_argumentDefects fun a ha path => ih a ha path
    rw [defects]
    split
    · exact hargs
    · refine List.pairwise_cons.mpr ⟨fun x hx => ?_, hargs⟩
      obtain ⟨i, c, _, hx⟩ := mem_argumentDefects.mp hx
      obtain ⟨s, hs⟩ := positions_of_child hx
      calc path.positions = path.positions ++ [] := (List.append_nil _).symm
        _ < path.positions ++ (Step.argument (0 + i)).position :: s :=
          List.append_left_lt (List.nil_lt_cons _ s)
        _ = x.path.positions := hs.symm
  | stmt x ih => exact ih _

end Expr

/-! ## Places in messages -/

def Step.label : Step → List Char
  | .left => ['l', 'e', 'f', 't']
  | .right => ['r', 'i', 'g', 'h', 't']
  | .inner => ['e', 'x', 'p', 'r']
  | .argument i => ['a', 'r', 'g', 's', '['] ++ Nat.toDigits 10 i ++ [']']

theorem Step.toList_render (step : Step) : step.render.toList = '.' :: step.label := by
  cases step with
  | argument i =>
    have hdigits : (Decimal.ofNat i).toList = Nat.toDigits 10 i := String.toList_ofList
    rw [render, String.toList_append, String.toList_append, hdigits]
    rfl
  | _ => rfl

theorem Step.dot_notMem_label (step : Step) : '.' ∉ step.label := by
  cases step with
  | argument i =>
    simp only [label, List.mem_append, not_or]
    refine ⟨⟨by decide, fun h => ?_⟩, by decide⟩
    exact absurd (Decimal.isDigit_of_mem_toDigits _ h) (by decide)
  | _ => decide

theorem Step.label_injective : Function.Injective Step.label := by
  intro a b h
  -- The first letters are all different.
  have hletter := congrArg List.head? h
  cases a <;> cases b
  case argument.argument i j =>
    have hdigits : Nat.toDigits 10 i = Nat.toDigits 10 j := by simpa [label] using h
    have hread := congrArg Decimal.toNat? hdigits
    rw [Decimal.toNat?_toDigits, Decimal.toNat?_toDigits, Option.some.injEq] at hread
    rw [hread]
  case left.left | right.right | inner.inner => rfl
  all_goals cases hletter

theorem append_dot_inj {s t a b : List Char} (ha : '.' ∉ a) (hb : '.' ∉ b)
    (h : s ++ '.' :: a = t ++ '.' :: b) : s = t ∧ a = b := by
  rcases List.append_eq_append_iff.mp h with ⟨u, rfl, hu⟩ | ⟨u, rfl, hu⟩
  · cases u with
    | nil => simpa using hu
    | cons c u =>
      obtain ⟨_, rfl⟩ := List.cons.inj hu
      simp at ha
  · cases u with
    | nil => simpa [eq_comm] using hu
    | cons c u =>
      obtain ⟨_, rfl⟩ := List.cons.inj hu
      simp at hb

theorem Path.render_injective : Function.Injective Path.render := by
  have hne (path : Path) : path.render.toList ≠ [] := by
    cases path with
    | nil => decide
    | cons step path => simp [render, Step.toList_render]
  have hroot (step : Step) (path : Path) : Path.render [] ≠ Path.render (step :: path) := by
    intro h
    have htext : ['$'] = path.render.toList ++ '.' :: step.label := by
      simpa [render, Step.toList_render] using congrArg String.toList h
    cases hpath : path.render.toList with
    | nil => exact hne path hpath
    | cons c cs => simp [hpath] at htext
  intro p q h
  induction p generalizing q with
  | nil =>
    cases q with
    | nil => rfl
    | cons step q => exact (hroot step q h).elim
  | cons step p ih =>
    cases q with
    | nil => exact (hroot step p h.symm).elim
    | cons step' q =>
      have htext := congrArg String.toList h
      simp only [render, String.toList_append, Step.toList_render] at htext
      obtain ⟨hpath, hlabel⟩ :=
        append_dot_inj step.dot_notMem_label step'.dot_notMem_label htext
      rw [ih (String.toList_injective hpath), Step.label_injective hlabel]

/-- Every message shows the place of its defect, written from the root. -/
theorem Defect.message_shows_path (d : Defect) :
    ∃ before after, d.message = before ++ d.path.render ++ after := by
  cases d with
  | missingOperand path => exact ⟨_, _, rfl⟩
  | emptyName path =>
    exact ⟨Kind.unsupportedNode.title ++ ": ", ": empty variable name in ",
      by simp [message, Defect.path, String.append_assoc]⟩
  | badCall path fault =>
    exact ⟨"", ": " ++ fault.message, by simp [message, Defect.path, String.append_assoc]⟩

/-! ## What validation reports -/

theorem validate_eq_error {e : Expr} (he : e ≠ .missing) {err : Error}
    (h : validate e = .error err) :
    ∃ first rest, reportedDefects e = first :: rest ∧ err = .defects first rest := by
  rw [validate_of_ne_missing he] at h
  rw [reportedDefects_eq he]
  split at h
  · cases h
  · next first rest hdefects =>
    cases h
    exact ⟨first, rest, hdefects, rfl⟩

theorem mem_reportedDefects {e : Expr} (he : e ≠ .missing) {path : Path} {t : Expr}
    {kind : Kind} :
    (∃ d ∈ reportedDefects e, d.path = path ∧ d.subject = t ∧ d.kind = kind) ↔
      e.follow path.reverse = some t ∧ t.Flawed kind := by
  simp only [reportedDefects_eq he, Expr.mem_defects, List.append_nil]
  constructor
  · rintro ⟨d, ⟨route, u, hu, hown⟩, rfl, rfl, rfl⟩
    obtain ⟨hpath, rfl, hflawed⟩ := Expr.ownDefect?_eq_some hown
    rw [hpath, List.reverse_reverse]
    exact ⟨hu, hflawed⟩
  · rintro ⟨ht, hflawed⟩
    obtain ⟨d, hown, hkind⟩ := hflawed.exists_ownDefect path
    obtain ⟨hpath, hsubject, _⟩ := Expr.ownDefect?_eq_some hown
    refine ⟨d, ⟨path.reverse, t, ht, ?_⟩, hpath, hsubject, hkind⟩
    rwa [List.reverse_reverse]

/-- Validation lists a defect for every place of the tree at which something is wrong, with
that place, the node there and its kind, and none else. The places increase in pre-order, so
each is listed once; a message shows its place, and different places are written differently.
A tree is accepted exactly if nothing is wrong anywhere. The kind of the whole error is that
of an unsupported node if one is listed, and else that of a missing operand. -/
theorem validate_lists_defects (e : Expr) (he : e ≠ .missing) :
    (∀ path t kind,
      (∃ d ∈ reportedDefects e, d.path = path ∧ d.subject = t ∧ d.kind = kind) ↔
        e.follow path.reverse = some t ∧ t.Flawed kind) ∧
    (reportedDefects e).Pairwise (fun a b => a.path.positions < b.path.positions) ∧
    (∀ d ∈ reportedDefects e, ∃ before after, d.message = before ++ d.path.render ++ after) ∧
    Function.Injective Path.render ∧
    (validate e = .ok () ↔ ∀ route t kind, e.follow route = some t → ¬ t.Flawed kind) ∧
    ∀ err, validate e = .error err →
      (∃ first rest, reportedDefects e = first :: rest ∧ err = .defects first rest) ∧
      ((∃ d ∈ reportedDefects e, d.kind = .unsupportedNode) →
        err.kind? = some .unsupportedNode) ∧
      ((∀ d ∈ reportedDefects e, d.kind ≠ .unsupportedNode) →
        err.kind? = some .missingOperand) := by
  refine ⟨fun path t kind => mem_reportedDefects he, ?_, fun d _ => d.message_shows_path,
    Path.render_injective, ?_, ?_⟩
  · rw [reportedDefects_eq he]
    exact Expr.pairwise_defects [] e
  · rw [validate_eq_ok_iff, ← @Expr.defects_eq_nil_iff e [], ← reportedDefects_eq he]
    constructor
    · intro hnil route t kind ht hflawed
      obtain ⟨d, hd, _⟩ := (mem_reportedDefects he).mpr
        ⟨(List.reverse_reverse route).symm ▸ ht, hflawed⟩
      rw [hnil] at hd
      cases hd
    · intro hnone
      refine List.eq_nil_iff_forall_not_mem.mpr fun d hd => ?_
      obtain ⟨ht, hflawed⟩ := (mem_reportedDefects he).mp ⟨d, hd, rfl, rfl, rfl⟩
      exact hnone _ _ _ ht hflawed
  · intro err herr
    obtain ⟨first, rest, hlist, rfl⟩ := validate_eq_error he herr
    refine ⟨⟨first, rest, hlist, rfl⟩, ?_, ?_⟩
    · rintro ⟨d, hd, hkind⟩
      refine if_pos (List.any_eq_true.mpr ⟨d, hlist ▸ hd, ?_⟩)
      rw [hkind]
      rfl
    · intro hnone
      refine if_neg fun hany => ?_
      obtain ⟨d, hd, hkind⟩ := List.any_eq_true.mp hany
      exact hnone d (hlist ▸ hd) (by simpa using hkind)

/-- An empty name, and a power of three arguments of which the first is missing and the
second is a call of no known function. -/
theorem validate_lists_defects_power :
    let e : Expr := .add (.sym "") (.call "pow" [.missing, .call "gamma" [.num 1], .sym "x"])
    e ≠ .missing ∧
      (reportedDefects e).map (fun d => (d.path.render, d.kind.name)) =
        [("$.left", "unsupported_node"), ("$.right", "unsupported_node"),
          ("$.right.args[0]", "missing_operand"), ("$.right.args[1]", "unsupported_node")] ∧
      (∃ d ∈ reportedDefects e, d.path = [.argument 0, .right] ∧ d.subject = .missing ∧
        d.kind = .missingOperand) ∧
      ∃ err, validate e = .error err ∧ err.kind? = some .unsupportedNode := by
  intro e
  have he : e ≠ .missing := by decide
  obtain ⟨hplaces, -, -, -, -, herror⟩ := validate_lists_defects e he
  have hmissing := (hplaces [.argument 0, .right] .missing .missingOperand).mpr ⟨rfl, .missing⟩
  obtain ⟨d, hd, _, _, hkind⟩ := (hplaces [.left] (.sym "") .unsupportedNode).mpr ⟨rfl, .unnamed⟩
  have hrefused : ∃ err, validate e = .error err := ⟨_, rfl⟩
  obtain ⟨err, herr⟩ := hrefused
  exact ⟨he, by decide, hmissing, err, herr, (herror err herr).2.1 ⟨d, hd, hkind⟩⟩

end SymbolicCalculus
