import SymbolicCalculus.Proofs.Evaluation
import SymbolicCalculus.Proofs.HigherDerivatives

/-!
# Reports can be run again

The subtree that an error points at is enough to bring the error about: the engine that
reported it, run on that subtree alone, reports the very same error. Differentiation and
evaluation point at a part of their operand. Simplification may point at a node that it
built itself, whose operands are simplified already, so that running it again changes
nothing before it comes to the same rule.
-/

set_option autoImplicit false

namespace SymbolicCalculus

namespace Expr

/-! ## Where a fault comes from -/

section
variable {α : Type}

/-- The fault is what the engine has against its subject, and the subject is part of the
tree. A place where no expression was given is no part of any tree. -/
structure Reports (engine : Expr → Except Fault α) (e : Expr) (f : Fault) : Prop where
  again : engine f.subject = .error f
  part : f.subject ≠ .missing → f.subject ∈ e.subtrees

variable {engine : Expr → Except Fault α}

theorem Reports.self {e : Expr} {f : Fault} (h : engine e = .error f) (hself : f.subject = e) :
    Reports engine e f where
  again := by rw [hself, h]
  part _ := by
    rw [hself]
    exact mem_subtrees_self e

theorem Reports.operand {x e : Expr} {f : Fault} (h : Reports engine x f)
    (hx : ∀ t ∈ x.subtrees, t ∈ e.subtrees) : Reports engine e f where
  again := h.again
  part hne := hx _ (h.part hne)

end

theorem mem_subtrees_left {op : Operator} {l r t : Expr} (ht : t ∈ l.subtrees) :
    t ∈ (binary op l r).subtrees := by
  simp [subtrees, ht]

theorem mem_subtrees_right {op : Operator} {l r t : Expr} (ht : t ∈ r.subtrees) :
    t ∈ (binary op l r).subtrees := by
  simp [subtrees, ht]

theorem mem_subtrees_neg {x t : Expr} (ht : t ∈ x.subtrees) : t ∈ (neg x).subtrees := by
  simp [subtrees, ht]

theorem mem_subtrees_stmt {x t : Expr} (ht : t ∈ x.subtrees) : t ∈ (stmt x).subtrees := by
  simp [subtrees, ht]

theorem mem_subtrees_argument {name : String} {args : List Expr} {a t : Expr} (ha : a ∈ args)
    (ht : t ∈ a.subtrees) : t ∈ (call name args).subtrees := by
  rw [subtrees, List.mem_cons, mem_subtreesAll]
  exact Or.inr ⟨a, ha, ht⟩

/-! ## Calls -/

section
variable {α : Type} {name : String} {args : List Expr}

theorem subject_of_resolveGiven {given : List α} {f : Fault}
    (h : resolveGiven name args given = .error f) : f.subject = .call name args := by
  unfold resolveGiven at h
  rcases bind_eq_error.mp h with hresolve | ⟨application, _, hmissing⟩
  · unfold resolve at hresolve
    split at hresolve
    · cases hresolve
      rfl
    · split at hresolve
      · cases hresolve
      · cases hresolve
        rfl
  · split at hmissing
    · cases hmissing
      rfl
    · cases hmissing

theorem resolveGiven_map {g : Expr → α} {application : Application α}
    (h : resolveGiven name args (args.map g) = .ok application) :
    application = .pi ∨ (∃ fn, ∃ u ∈ args, application = .unary fn (g u)) ∨
      ∃ b ∈ args, ∃ n ∈ args, application = .pow (g b) (g n) := by
  obtain ⟨hresolve, _⟩ := resolveGiven_eq_ok.mp h
  obtain ⟨rfl, hargs⟩ | ⟨fn, p, rfl, hargs⟩ | ⟨p, q, rfl, hargs⟩ := resolve_eq_ok hresolve
  · rw [hargs] at hresolve
    exact Or.inl (Except.ok.inj hresolve).symm
  · obtain ⟨u, rfl, rfl⟩ := List.map_eq_singleton_iff.mp hargs
    rw [hargs, resolve_unary] at hresolve
    exact Or.inr (Or.inl ⟨fn, u, by simp, (Except.ok.inj hresolve).symm⟩)
  · obtain ⟨b, rest, rfl, rfl, hrest⟩ := List.map_eq_cons_iff.mp hargs
    obtain ⟨n, rfl, rfl⟩ := List.map_eq_singleton_iff.mp hrest
    exact Or.inr (Or.inr ⟨b, by simp, n, by simp, (Except.ok.inj hresolve).symm⟩)

end

/-! ## Differentiation -/

theorem derive_call_error {v name : String} {args : List Expr} {f : Fault}
    (h : derive v (.call name args) = .error f) :
    f.subject = .call name args ∨ ∃ a ∈ args, derive v a = .error f := by
  rw [derive, deriveEach_eq_map] at h
  rcases bind_eq_error.mp h with hgiven | ⟨application, hgiven, hrule⟩
  · exact Or.inl (subject_of_resolveGiven hgiven)
  · right
    obtain rfl | ⟨fn, u, hu, rfl⟩ | ⟨b, hb, n, hn, rfl⟩ := resolveGiven_map hgiven
    · cases hrule
    · rcases bind_eq_error.mp hrule with hdu | ⟨_, _, ⟨⟩⟩
      exact ⟨u, hu, hdu⟩
    · rcases bind_eq_error.mp hrule with hdb | ⟨_, _, hrest⟩
      · exact ⟨b, hb, hdb⟩
      · rcases bind_eq_error.mp hrest with hdn | ⟨_, _, ⟨⟩⟩
        exact ⟨n, hn, hdn⟩

theorem derive_reports {v : String} {e : Expr} {f : Fault} (h : derive v e = .error f) :
    Reports (derive v) e f := by
  induction e with
  | missing =>
    refine .self h ?_
    cases h
    rfl
  | num _ => cases h
  | sym _ => cases h
  | binary op l r ihl ihr =>
    rcases bind_eq_error.mp h with hl | ⟨dl, _, h⟩
    · exact (ihl hl).operand fun _ => mem_subtrees_left
    · rcases bind_eq_error.mp h with hr | ⟨dr, _, ⟨⟩⟩
      exact (ihr hr).operand fun _ => mem_subtrees_right
  | neg x ih =>
    rcases bind_eq_error.mp h with hx | ⟨dx, _, ⟨⟩⟩
    exact (ih hx).operand fun _ => mem_subtrees_neg
  | call name args ih =>
    rcases derive_call_error h with hself | ⟨a, ha, harg⟩
    · exact .self h hself
    · exact (ih a ha harg).operand fun _ => mem_subtrees_argument ha
  | stmt x ih =>
    rcases bind_eq_error.mp h with hx | ⟨dx, _, ⟨⟩⟩
    exact (ih hx).operand fun _ => mem_subtrees_stmt

/-! ## Evaluation -/

section
variable {env : Environment}

theorem valueEach_eq_map (args : List Expr) : valueEach env args = args.map (value env) := by
  induction args with
  | nil => rfl
  | cons a as ih => rw [valueEach, ih, List.map_cons]

theorem subject_of_powerValue {e : Expr} {b n : Float} {f : Fault}
    (h : powerValue e b n = .error f) : f.subject = e := by
  unfold powerValue at h
  split_ifs at h
  cases h
  rfl

theorem subject_of_operatorValue {e : Expr} {op : Operator} {x y : Float} {f : Fault}
    (h : operatorValue e op x y = .error f) : f.subject = e := by
  cases op with
  | add => cases h
  | sub => cases h
  | mul => cases h
  | div =>
    unfold operatorValue at h
    split_ifs at h
    cases h
    rfl
  | pow => exact subject_of_powerValue h

theorem value_call_error {name : String} {args : List Expr} {f : Fault}
    (h : value env (.call name args) = .error f) :
    f.subject = .call name args ∨ ∃ a ∈ args, value env a = .error f := by
  rw [value, valueEach_eq_map] at h
  rcases bind_eq_error.mp h with hgiven | ⟨application, hgiven, hrule⟩
  · exact Or.inl (subject_of_resolveGiven hgiven)
  · obtain rfl | ⟨fn, u, hu, rfl⟩ | ⟨b, hb, n, hn, rfl⟩ := resolveGiven_map hgiven
    · cases hrule
    · rcases bind_eq_error.mp hrule with hu' | ⟨_, _, ⟨⟩⟩
      exact Or.inr ⟨u, hu, hu'⟩
    · rcases bind_eq_error.mp hrule with hb' | ⟨_, _, hrest⟩
      · exact Or.inr ⟨b, hb, hb'⟩
      · rcases bind_eq_error.mp hrest with hn' | ⟨_, _, hpower⟩
        · exact Or.inr ⟨n, hn, hn'⟩
        · exact Or.inl (subject_of_powerValue hpower)

theorem value_reports {e : Expr} {f : Fault} (h : value env e = .error f) :
    Reports (value env) e f := by
  induction e with
  | missing =>
    refine .self h ?_
    cases h
    rfl
  | num _ => cases h
  | sym name =>
    refine .self h ?_
    rw [value] at h
    split at h
    · cases h
    · cases h
      rfl
  | binary op l r ihl ihr =>
    have hself := h
    rw [value_binary] at h
    rcases bind_eq_error.mp h with hl | ⟨x, _, h⟩
    · exact (ihl hl).operand fun _ => mem_subtrees_left
    · rcases bind_eq_error.mp h with hr | ⟨y, _, hop⟩
      · exact (ihr hr).operand fun _ => mem_subtrees_right
      · exact .self hself (subject_of_operatorValue hop)
  | neg x ih =>
    rw [value_neg] at h
    rcases bind_eq_error.mp h with hx | ⟨_, _, ⟨⟩⟩
    exact (ih hx).operand fun _ => mem_subtrees_neg
  | call name args ih =>
    rcases value_call_error h with hself | ⟨a, ha, harg⟩
    · exact .self h hself
    · exact (ih a ha harg).operand fun _ => mem_subtrees_argument ha
  | stmt x ih =>
    rw [value_stmt] at h
    exact (ih h).operand fun _ => mem_subtrees_stmt

end

/-! ## Simplification -/

theorem reduceAll_error {args : List Expr} {f : Fault} (h : reduceAll args = .error f) :
    ∃ a ∈ args, reduce a = .error f := by
  induction args with
  | nil => cases h
  | cons a as ih =>
    rcases bind_eq_error.mp h with ha | ⟨a', _, h⟩
    · exact ⟨a, by simp, ha⟩
    · rcases bind_eq_error.mp h with has | ⟨as', _, ⟨⟩⟩
      obtain ⟨b, hb, hfault⟩ := ih has
      exact ⟨b, by simp [hb], hfault⟩

theorem Raises.again {form : PowerForm} {b n : Expr} {f : Fault}
    (h : Raises form b n (.error f)) : reduce f.subject = .error f := by
  generalize hx : Except.error f = x at h
  induction h with
  | zero_to_zero =>
    cases hx
    rw [reduce_build]
    rfl
  | @zero_to_negative m hm =>
    cases hx
    have hnonzero : (num m).isZero = false := by
      rw [← Bool.not_eq_true, isZero_iff]
      rintro ⟨⟩
      exact absurd hm (by decide)
    have hnegative : (num m).isNegative = true := isNegative_iff.mpr ⟨m, rfl, hm⟩
    rw [reduce_build]
    show power form (.num 0) (.num m) = _
    rw [power.eq_def, if_pos (by simp), if_neg (by simp [hnonzero]), if_pos hnegative]
  | flatten _ _ _ ih => exact ih hx
  | _ => cases hx

theorem Divides.again {l r : Expr} {f : Fault} (h : Divides l r (.error f)) (hl : RedexFree l) :
    reduce f.subject = .error f := by
  cases h with
  | zero_divisor _ =>
    show (reduce l >>= fun l' => reduce (.num 0) >>= fun r' => quotient l' r') = _
    rw [reduce_of_redexFree hl]
    rfl

theorem applyRule_again {op : Operator} {l r : Expr} {f : Fault}
    (h : applyRule op l r = .error f) (hl : RedexFree l) : reduce f.subject = .error f := by
  cases op with
  | add => cases h
  | sub => cases h
  | mul => cases h
  | div =>
    have hdivides := divides_quotient l r
    rw [show quotient l r = .error f from h] at hdivides
    exact hdivides.again hl
  | pow =>
    have hraises := raises_power .node l r
    rw [show power .node l r = .error f from h] at hraises
    exact hraises.again

theorem reduce_again {e : Expr} {f : Fault} (h : reduce e = .error f) :
    reduce f.subject = .error f := by
  induction e with
  | missing =>
    cases h
    rfl
  | num _ => cases h
  | sym _ => cases h
  | binary op l r ihl ihr =>
    rcases bind_eq_error.mp h with hl | ⟨l', hl, h⟩
    · exact ihl hl
    · rcases bind_eq_error.mp h with hr | ⟨r', _, happly⟩
      · exact ihr hr
      · exact applyRule_again happly (reduce_redexFree hl)
  | neg x ih =>
    rcases bind_eq_error.mp h with hx | ⟨x', _, ⟨⟩⟩
    exact ih hx
  | call name args ih =>
    have hself := h
    rcases bind_eq_error.mp h with hargs | ⟨reduced, _, h⟩
    · obtain ⟨a, ha, harg⟩ := reduceAll_error hargs
      exact ih a ha harg
    · split_ifs at h
      split at h
      · next b n _ =>
        have hraises := raises_power .call b n
        rw [h] at hraises
        exact hraises.again
      · -- A power with the wrong number of arguments is reported as it stood.
        cases h
        exact hself
  | stmt x ih =>
    rcases bind_eq_error.mp h with hx | ⟨x', _, ⟨⟩⟩
    exact ih hx

end Expr

/-- An engine that stops with an error stops with the same error, of the same kind and with
the same subject, when it is run on the subject alone. Where differentiation and evaluation
have a subject, it is a part of the tree. -/
theorem errors_reproduced (e : Expr) (err : Error) :
    (simplify e = .error err → simplify err.subject = .error err) ∧
    (∀ v, differentiate v e = .error err →
      differentiate v err.subject = .error err ∧
        (err.subject ≠ .missing → err.subject ∈ e.subtrees)) ∧
    ∀ env, evaluate env e = .error err →
      evaluate env err.subject = .error err ∧
        (err.subject ≠ .missing → err.subject ∈ e.subtrees) := by
  refine ⟨?_, ?_, ?_⟩
  · intro h
    obtain ⟨f, hf, rfl⟩ := mapError_eq_error.mp h
    exact mapError_eq_error.mpr ⟨f, Expr.reduce_again hf, rfl⟩
  · intro v h
    obtain ⟨f, hf, rfl⟩ := mapError_eq_error.mp h
    have hreports := Expr.derive_reports hf
    exact ⟨mapError_eq_error.mpr ⟨f, hreports.again, rfl⟩, hreports.part⟩
  · intro env h
    obtain ⟨f, hf, rfl⟩ := mapError_eq_error.mp h
    have hreports := Expr.value_reports hf
    exact ⟨mapError_eq_error.mpr ⟨f, hreports.again, rfl⟩, hreports.part⟩

/-- `y + pow(x - x, z * 0)` is refused for `pow(0, 0)`, which stands nowhere in it, and has no
value because of the unbound `y`. The negation of a power with three arguments, one of them
missing, has no derivative because of that power. -/
theorem errors_reproduced_power :
    let e : Expr :=
      .add (.sym "y") (.call "pow" [.sub (.sym "x") (.sym "x"), .mul (.sym "z") (.num 0)])
    let zero : Expr := .call "pow" [.num 0, .num 0]
    let long : Expr := .call "pow" [.sym "x", .num 1, .missing]
    let err : Error := .during .simplifying (.fault ⟨.zeroToZero, zero⟩)
    let miscounted : Error := .during (.differentiating "x") (.fault ⟨.wrongArity .pow 3, long⟩)
    let unbound : Error := .during .evaluating (.fault ⟨.unbound "y", .sym "y"⟩)
    (simplify e = .error err ∧ zero ∉ e.subtrees ∧ simplify zero = .error err) ∧
      (differentiate "x" (.neg long) = .error miscounted ∧
        differentiate "x" long = .error miscounted ∧ long ∈ (Expr.neg long).subtrees) ∧
      evaluate (fun _ => none) e = .error unbound ∧
        evaluate (fun _ => none) (.sym "y") = .error unbound ∧ .sym "y" ∈ e.subtrees := by
  intro e zero long err miscounted unbound
  have hsimplify : simplify e = .error err := rfl
  have hderive : differentiate "x" (.neg long) = .error miscounted := rfl
  have hvalue : evaluate (fun _ => none) e = .error unbound := rfl
  have hlong := (errors_reproduced (.neg long) miscounted).2.1 "x" hderive
  have hy := (errors_reproduced e unbound).2.2 (fun _ => none) hvalue
  exact ⟨⟨hsimplify, by decide, (errors_reproduced e err).1 hsimplify⟩,
    ⟨hderive, hlong.1, hlong.2 (by decide)⟩, hvalue, hy.1, hy.2 (by decide)⟩

end SymbolicCalculus
