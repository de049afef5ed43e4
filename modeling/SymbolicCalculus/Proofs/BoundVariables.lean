import SymbolicCalculus.Proofs.FreeSymbols
import SymbolicCalculus.Proofs.ReportedFaults

/-!
# What evaluation depends on

Of an environment, evaluation reads the bindings of the variables that occur in the tree and
nothing else. It skips no part of the tree, so a value of the whole shows that every variable
is bound and that every call fits the vocabulary. Conversely a valid tree whose variables are
bound fails only where an operation has no value.

The check of a call and the choice of the function that is computed can be two tables of
names, of which the second is asked after the arguments have been evaluated. Evaluation by
two such tables is defined here, and it is the same evaluation: the second never misses.
-/

set_option autoImplicit false

namespace SymbolicCalculus

def Fault.NoValue (f : Fault) : Prop :=
  f.kind = .divisionByZero ∨ f.kind = .indeterminateForm

/-! ## Calls -/

def Application.map {α β : Type} (g : α → β) : Application α → Application β
  | .pi => .pi
  | .unary f u => .unary f (g u)
  | .pow b e => .pow (g b) (g e)

theorem Function.apply?_map {α β : Type} (f : Function) (given : List α) (g : α → β) :
    f.apply? (given.map g) = ( f.apply? given).map (Application.map g) := by
  rcases given with _ | ⟨a, _ | ⟨b, _ | ⟨c, rest⟩⟩⟩
  all_goals cases f <;> rfl

namespace Expr

theorem resolveGiven_map_args {α : Type} (name : String) (args : List Expr) (g : Expr → α) :
    resolveGiven name args (args.map g) =
      (resolveGiven name args args).map (Application.map g) := by
  have hresolve : resolve name args (args.map g) =
      (resolve name args args).map (Application.map g) := by
    unfold resolve
    cases Function.ofName? name with
    | none => rfl
    | some f =>
      simp only [Function.apply?_map, List.length_map]
      cases f.apply? args with
      | none => rfl
      | some application => rfl
  unfold resolveGiven
  rw [hresolve]
  cases resolve name args args with
  | error fault => rfl
  | ok application =>
    cases missingIndex 0 args with
    | none => rfl
    | some index => rfl

/-- A call is refused before any of its arguments is evaluated, or it is one of the three
shapes of the vocabulary. -/
theorem value_call_cases (env : Environment) (name : String) (args : List Expr) :
    (∃ fault, resolveGiven name args args = .error fault ∧
      value env (.call name args) = .error fault) ∨
    ∃ application, resolveGiven name args args = .ok application ∧
      ((name = "pi" ∧ args = []) ∨
      (∃ (f : Unary) (u : Expr), name = f.name ∧ args = [u] ∧
        value env (.call f.name [u]) = (value env u >>= fun x => .ok (f.value x))) ∨
      ∃ b n : Expr, name = "pow" ∧ args = [b, n] ∧
        value env (.call "pow" [b, n]) = (value env b >>= fun x => value env n >>= fun m =>
          powerValue (.call "pow" [b, n]) x m)) := by
  cases hgiven : resolveGiven name args args with
  | error fault =>
    refine Or.inl ⟨fault, rfl, ?_⟩
    rw [value, valueEach_eq_map, resolveGiven_map_args, hgiven]
    rfl
  | ok application =>
    refine Or.inr ⟨application, rfl, ?_⟩
    obtain ⟨hresolve, hpresent⟩ := resolveGiven_eq_ok.mp hgiven
    obtain hpi | ⟨f, u, rfl, rfl⟩ | ⟨b, n, rfl, rfl⟩ := resolve_eq_ok hresolve
    · exact Or.inl hpi
    · exact Or.inr (Or.inl ⟨f, u, rfl, rfl, value_unary f (hpresent u (by simp))⟩)
    · exact Or.inr (Or.inr ⟨b, n, rfl, rfl,
        value_pow (hpresent b (by simp)) (hpresent n (by simp))⟩)

section
variable {env env' : Environment}

/-! ## Environments that agree -/

theorem value_congr {e : Expr} (h : ∀ x, Occurs x e → env x = env' x) :
    value env e = value env' e := by
  induction e with
  | missing => rfl
  | num _ => rfl
  | sym name => simp only [value, h name (occurs_sym.mpr rfl)]
  | binary op l r ihl ihr =>
    rw [value_binary, value_binary, ihl fun x hx => h x (occurs_binary.mpr (Or.inl hx)),
      ihr fun x hx => h x (occurs_binary.mpr (Or.inr hx))]
  | neg u ih =>
    rw [value_neg, value_neg, ih fun x hx => h x (occurs_neg.mpr hx)]
  | call name args ih =>
    have hargs : args.map (value env) = args.map (value env') :=
      List.map_congr_left fun a ha => ih a ha fun x hx => h x (occurs_call.mpr ⟨a, ha, hx⟩)
    simp only [value, valueEach_eq_map, hargs]
  | stmt u ih =>
    rw [value_stmt, value_stmt, ih fun x hx => h x (occurs_stmt.mpr hx)]

/-! ## Valid trees with every variable bound -/

theorem powerValue_failsOnly (e : Expr) (b n : Float) :
    FailsOnly Fault.NoValue (powerValue e b n) := by
  unfold powerValue
  split_ifs
  · exact .error (Or.inr rfl)
  · exact .ok _

theorem operatorValue_failsOnly (e : Expr) (op : Operator) (x y : Float) :
    FailsOnly Fault.NoValue (operatorValue e op x y) := by
  cases op with
  | add => exact .ok _
  | sub => exact .ok _
  | mul => exact .ok _
  | div =>
    unfold operatorValue
    split_ifs
    · exact .error (Or.inl rfl)
    · exact .ok _
  | pow => exact powerValue_failsOnly e x y

theorem value_failsOnly {e : Expr} (h : WellFormed e)
    (hbound : ∀ x, Occurs x e → (env x).isSome) : FailsOnly Fault.NoValue (value env e) := by
  induction h with
  | num _ => exact .ok _
  | @sym name _ =>
    obtain ⟨a, ha⟩ := Option.isSome_iff_exists.mp (hbound name (occurs_sym.mpr rfl))
    rw [value, ha]
    exact .ok a
  | binary op _ _ ihl ihr =>
    rw [value_binary]
    refine .bind (ihl fun x hx => hbound x (occurs_binary.mpr (Or.inl hx))) fun a => ?_
    refine .bind (ihr fun x hx => hbound x (occurs_binary.mpr (Or.inr hx))) fun b => ?_
    exact operatorValue_failsOnly _ op a b
  | neg _ ih =>
    rw [value_neg]
    exact .bind (ih fun x hx => hbound x (occurs_neg.mpr hx)) fun a => .ok _
  | pi => exact .ok _
  | unary f hu ih =>
    rw [value_unary f hu.isMissing_eq_false]
    refine .bind (ih fun x hx => hbound x (occurs_call.mpr ⟨_, by simp, hx⟩)) fun a => ?_
    exact .ok _
  | pow hb hn ihb ihn =>
    rw [value_pow hb.isMissing_eq_false hn.isMissing_eq_false]
    refine .bind (ihb fun x hx => hbound x (occurs_call.mpr ⟨_, by simp, hx⟩)) fun b => ?_
    refine .bind (ihn fun x hx => hbound x (occurs_call.mpr ⟨_, by simp, hx⟩)) fun n => ?_
    exact powerValue_failsOnly _ b n
  | stmt _ ih =>
    rw [value_stmt]
    exact ih fun x hx => hbound x (occurs_stmt.mpr hx)

/-! ## What a value shows -/

def Valued (env : Environment) (e : Expr) : Prop :=
  ∃ x, value env e = .ok x

def FitsVocabulary (name : String) (args : List Expr) : Prop :=
  ∃ f : Function, Function.ofName? name = some f ∧ args.length = f.arity

/-- A call that has a value fits the vocabulary, and each of its arguments has a value: none of
the three shapes leaves one out. -/
theorem Valued.call {name : String} {args : List Expr} (h : Valued env (.call name args)) :
    FitsVocabulary name args ∧ ∀ a ∈ args, Valued env a := by
  obtain ⟨x, hx⟩ := h
  obtain ⟨fault, _, herror⟩ | ⟨_, _, ⟨rfl, rfl⟩ | ⟨f, u, rfl, rfl, hcall⟩ |
    ⟨b, n, rfl, rfl, hcall⟩⟩ := value_call_cases env name args
  · rw [herror] at hx
    cases hx
  · exact ⟨⟨.pi, rfl, rfl⟩, by simp⟩
  · rw [hcall] at hx
    obtain ⟨a, ha, _⟩ := bind_eq_ok.mp hx
    exact ⟨⟨.unary f, Function.ofName?_name (.unary f), rfl⟩, by simpa [Valued] using ⟨a, ha⟩⟩
  · rw [hcall] at hx
    obtain ⟨a, ha, hx⟩ := bind_eq_ok.mp hx
    obtain ⟨m, hm, _⟩ := bind_eq_ok.mp hx
    exact ⟨⟨.pow, rfl, rfl⟩, by simpa [Valued] using ⟨⟨a, ha⟩, ⟨m, hm⟩⟩⟩

/-- Nothing is skipped: if the whole has a value, so does every part. -/
theorem Valued.throughout {e : Expr} (h : Valued env e) : Throughout (Valued env) e := by
  induction e with
  | missing =>
    obtain ⟨x, hx⟩ := h
    cases hx
  | num _ => simpa [Throughout, subtrees] using h
  | sym _ => simpa [Throughout, subtrees] using h
  | binary op l r ihl ihr =>
    have hself := h
    obtain ⟨x, hx⟩ := h
    rw [value_binary] at hx
    obtain ⟨a, ha, hx⟩ := bind_eq_ok.mp hx
    obtain ⟨b, hb, _⟩ := bind_eq_ok.mp hx
    exact throughout_binary.mpr ⟨hself, ihl ⟨a, ha⟩, ihr ⟨b, hb⟩⟩
  | neg u ih =>
    have hself := h
    obtain ⟨x, hx⟩ := h
    rw [value_neg] at hx
    obtain ⟨a, ha, _⟩ := bind_eq_ok.mp hx
    exact throughout_neg.mpr ⟨hself, ih ⟨a, ha⟩⟩
  | call name args ih =>
    exact throughout_call.mpr ⟨h, fun a ha => ih a ha (h.call.2 a ha)⟩
  | stmt u ih =>
    have hself := h
    obtain ⟨x, hx⟩ := h
    rw [value_stmt] at hx
    exact throughout_stmt.mpr ⟨hself, ih ⟨x, hx⟩⟩

theorem Valued.bound {name : String} (h : Valued env (.sym name)) : (env name).isSome := by
  obtain ⟨x, hx⟩ := h
  rw [value] at hx
  split at hx
  · next a ha => simp [ha]
  · cases hx

end

end Expr

/-! ## Functions by name -/

namespace Real64

def ofFirst (f : Float → Float) : List Float → Option Float
  | [] => none
  | x :: _ => some (f x)

/-- The functions that are computed from the values of their arguments. The power is not
among them: it is asked first whether it has a value. -/
def implementations : List (String × (List Float → Option Float)) :=
  [("sin", ofFirst Float.sin), ("cos", ofFirst Float.cos), ("tan", ofFirst Float.tan),
    ("asin", ofFirst Float.asin), ("acos", ofFirst Float.acos), ("atan", ofFirst Float.atan),
    ("sinh", ofFirst sinh), ("cosh", ofFirst cosh), ("tanh", ofFirst Float.tanh),
    ("asinh", ofFirst Float.asinh), ("acosh", ofFirst Float.acosh),
    ("atanh", ofFirst Float.atanh), ("exp", ofFirst Float.exp), ("expm1", ofFirst expm1),
    ("log", ofFirst Float.log), ("log10", ofFirst log10), ("log1p", ofFirst log1p),
    ("sqrt", ofFirst Float.sqrt), ("pi", fun _ => some pi)]

def compute? (name : String) (xs : List Float) : Option Float :=
  (implementations.lookup name).bind fun implementation => implementation xs

theorem compute?_unary (f : Unary) (x : Float) : compute? f.name [x] = some (f.value x) := by
  cases f <;> rfl

end Real64

/-- Why an evaluation by names stops. -/
inductive Stop where
  | fault (f : Fault)
  | unimplemented (name : String)

namespace Expr

/-- The value of a call `e`, which has passed its check, from the values of its arguments. -/
def callByName (e : Expr) (name : String) (xs : List Float) : Except Stop Float :=
  if name = "pow" then
    match xs with
    | b :: n :: _ => (powerValue e b n).mapError .fault
    | _ => .error (.unimplemented name)
  else
    match Real64.compute? name xs with
    | some x => .ok x
    | none => .error (.unimplemented name)

mutual
/-- Evaluation by two tables: a call is checked against the vocabulary, then its arguments are
evaluated from left to right, and then its function is looked up. -/
def valueByName (env : Environment) : Expr → Except Stop Float
  | .missing => .error (.fault .noExpression)
  | .num v => .ok v.toFloat
  | .sym name =>
    match env name with
    | some x => .ok x
    | none => .error (.fault ⟨.unbound name, .sym name⟩)
  | .binary op l r => do
    let x ← valueByName env l
    let y ← valueByName env r
    (operatorValue (.binary op l r) op x y).mapError .fault
  | .neg x => do
    let x ← valueByName env x
    .ok (-x)
  | .call name args => do
    let _ ← (resolveGiven name args args).mapError .fault
    let xs ← valuesByName env args
    callByName (.call name args) name xs
  | .stmt x => valueByName env x
def valuesByName (env : Environment) : List Expr → Except Stop (List Float)
  | [] => .ok []
  | a :: as => do
    let x ← valueByName env a
    let xs ← valuesByName env as
    .ok (x :: xs)
end

theorem callByName_unary (e : Expr) (f : Unary) (x : Float) :
    callByName e f.name [x] = .ok (f.value x) := by
  unfold callByName
  rw [if_neg f.name_ne_pow, Real64.compute?_unary]

theorem callByName_pow (e : Expr) (b n : Float) :
    callByName e "pow" [b, n] = (powerValue e b n).mapError .fault :=
  if_pos rfl

/-- Evaluation by two tables stops for no other reason than evaluation does. -/
theorem valueByName_eq (env : Environment) (e : Expr) :
    valueByName env e = (value env e).mapError .fault := by
  induction e with
  | missing => rfl
  | num _ => rfl
  | sym name =>
    rw [valueByName, value]
    cases env name with
    | some x => rfl
    | none => rfl
  | binary op l r ihl ihr =>
    rw [valueByName, value_binary, mapError_bind, ihl]
    simp only [mapError_bind, ihr]
  | neg u ih =>
    rw [valueByName, value_neg, mapError_bind, ih]
    rfl
  | call name args ih =>
    -- Both sides check the call first. Where it passes, the name is in the second table too.
    obtain ⟨fault, hgiven, herror⟩ | ⟨application, hgiven, ⟨rfl, rfl⟩ |
      ⟨f, u, rfl, rfl, hcall⟩ | ⟨b, n, rfl, rfl, hcall⟩⟩ := value_call_cases env name args
    · rw [valueByName, hgiven, herror]
      rfl
    · rfl
    · rw [valueByName, hgiven, hcall, valuesByName, ih u (by simp)]
      cases value env u with
      | error fault => rfl
      | ok x => exact callByName_unary (.call f.name [u]) f x
    · rw [valueByName, hgiven, hcall, valuesByName, valuesByName, ih b (by simp), ih n (by simp)]
      cases value env b with
      | error fault => rfl
      | ok x =>
        cases value env n with
        | error fault => rfl
        | ok m => exact callByName_pow (.call "pow" [b, n]) x m
  | stmt u ih => rw [valueByName, value_stmt, ih]

end Expr

open SymbolicCalculus.Expr (mem_freeSymbols)

/-- Environments that agree on the variables of a tree give it the same value or the same
error. A valid tree whose variables are all bound fails only where something is divided by
zero or zero is raised to zero. A value shows that every variable of the tree is bound and
that every call in it has a known name and the right number of arguments. Looking functions
up by name changes nothing, so no look-up misses. -/
theorem evaluate_free_symbols (e : Expr) :
    (∀ env env' : Environment, (∀ x ∈ e.freeSymbols, env x = env' x) →
      evaluate env e = evaluate env' e) ∧
    (∀ env : Environment, validate e = .ok () → (∀ x ∈ e.freeSymbols, (env x).isSome) →
      ∀ err, evaluate env e = .error err →
        err.kind? = some .divisionByZero ∨ err.kind? = some .indeterminateForm) ∧
    (∀ env : Environment, e.valueByName env = (e.value env).mapError .fault) ∧
    ∀ (env : Environment) (x : Float), evaluate env e = .ok x →
      (∀ name ∈ e.freeSymbols, (env name).isSome) ∧
      ∀ name args, .call name args ∈ e.subtrees → Expr.FitsVocabulary name args := by
  refine ⟨?_, ?_, fun env => Expr.valueByName_eq env e, ?_⟩
  · intro env env' hagree
    unfold evaluate
    rw [Expr.value_congr fun x hx => hagree x (mem_freeSymbols.mpr hx)]
  · intro env hvalid hbound err herr
    have hfails : FailsOnly Fault.NoValue (e.value env) :=
      Expr.value_failsOnly (validate_eq_ok_iff.mp hvalid) fun x hx =>
        hbound x (mem_freeSymbols.mpr hx)
    obtain ⟨f, hf, rfl⟩ := mapError_eq_error.mp herr
    exact (hfails f hf).imp (congrArg some) (congrArg some)
  · intro env x hx
    have hvalued : e.Valued env := ⟨x, evaluate_eq_ok.mp hx⟩
    refine ⟨fun name hname => ?_, fun name args hcall => ?_⟩
    · exact (hvalued.throughout _ (mem_freeSymbols.mp hname)).bound
    · exact (hvalued.throughout _ hcall).call.1

/-- `sin(x)/y` with `x` and `y` bound: a further binding makes no difference, and with zero
for `y` there is an error. -/
theorem evaluate_free_symbols_quotient :
    let env : Environment := fun name => if name = "x" ∨ name = "y" then some 2 else none
    let e : Expr := .div (.call "sin" [.sym "x"]) (.sym "y")
    validate e = .ok () ∧ evaluate env e = .ok (Float.sin 2 / 2) ∧
      evaluate (env.bind "z" 3) e = .ok (Float.sin 2 / 2) ∧
      (∀ name ∈ e.freeSymbols, (env name).isSome) ∧
      (∃ f, Function.ofName? "sin" = some f ∧ f.arity = 1) ∧
      ∃ err, evaluate (env.bind "y" 0) e = .error err ∧
        (err.kind? = some .divisionByZero ∨ err.kind? = some .indeterminateForm) := by
  intro env e
  obtain ⟨hagree, hfails, -, hshows⟩ := evaluate_free_symbols e
  have hdivisor : ((2 : Float) == 0) = false := by decide +kernel
  have hzero : ((0 : Float) == 0) = true := by decide +kernel
  have hvalue : evaluate env e = .ok (Float.sin 2 / 2) := by
    refine evaluate_eq_ok.mpr ?_
    show Expr.operatorValue e .div (Float.sin 2) 2 = _
    rw [Expr.operatorValue, if_neg (by simp [hdivisor])]
  have herror : evaluate (env.bind "y" 0) e =
      .error (.during .evaluating (.fault ⟨.zeroDivisorValue, e⟩)) := by
    refine mapError_eq_error.mpr ⟨_, ?_, rfl⟩
    show Expr.operatorValue e .div (Float.sin 2) 0 = _
    rw [Expr.operatorValue, if_pos hzero]
  obtain ⟨hbound, hcalls⟩ := hshows env _ hvalue
  obtain ⟨f, hf, harity⟩ := hcalls "sin" [.sym "x"] (by decide)
  refine ⟨rfl, hvalue, ?_, hbound, ⟨f, hf, harity.symm⟩, _, herror, ?_⟩
  · rw [← hagree env (env.bind "z" 3) (by decide), hvalue]
  · exact hfails (env.bind "y" 0) rfl (by decide) _ herror

end SymbolicCalculus
