/-!
# Expression trees

The closed set of node kinds, structural equality, and the measures and tests
that every engine uses. `missing` marks the place of an operand that was never
given, so a tree with holes is still a tree and every engine has to answer for it.
-/

set_option autoImplicit false

namespace SymbolicCalculus

inductive Operator where
  | add | sub | mul | div | pow
  deriving DecidableEq, Repr

inductive Expr where
  | missing
  | num (value : Int64)
  | sym (name : String)
  | binary (op : Operator) (left right : Expr)
  | neg (operand : Expr)
  | call (name : String) (args : List Expr)
  | stmt (body : Expr)
  deriving Repr, Inhabited

namespace Expr

@[match_pattern] abbrev add (l r : Expr) : Expr := .binary .add l r
@[match_pattern] abbrev sub (l r : Expr) : Expr := .binary .sub l r
@[match_pattern] abbrev mul (l r : Expr) : Expr := .binary .mul l r
@[match_pattern] abbrev div (l r : Expr) : Expr := .binary .div l r
@[match_pattern] abbrev pow (b e : Expr) : Expr := .binary .pow b e

/-- Induction over trees, with one hypothesis for all the arguments of a call. -/
@[induction_eliminator]
theorem induct {motive : Expr → Prop} (missing : motive .missing) (num : ∀ v, motive (.num v))
    (sym : ∀ name, motive (.sym name))
    (binary : ∀ op l r, motive l → motive r → motive (.binary op l r))
    (neg : ∀ x, motive x → motive (.neg x))
    (call : ∀ name args, (∀ a ∈ args, motive a) → motive (.call name args))
    (stmt : ∀ x, motive x → motive (.stmt x)) (e : Expr) : motive e := by
  refine @Expr.rec motive (fun as => ∀ a ∈ as, motive a) missing num sym binary neg call stmt
    ?_ ?_ e
  · simp
  · intro a as ha has b hb
    rcases List.mem_cons.mp hb with rfl | hb
    · exact ha
    · exact has b hb

/-! ## Structural equality -/

mutual
def same : Expr → Expr → Bool
  | .missing, .missing => true
  | .num a, .num b => a = b
  | .sym a, .sym b => a = b
  | .binary o l r, .binary o' l' r' => o = o' && same l l' && same r r'
  | .neg x, .neg y => same x y
  | .call f as, .call g bs => f = g && sameAll as bs
  | .stmt x, .stmt y => same x y
  | _, _ => false
def sameAll : List Expr → List Expr → Bool
  | [], [] => true
  | a :: as, b :: bs => same a b && sameAll as bs
  | _, _ => false
end

mutual
theorem eq_of_same : ∀ {a b : Expr}, same a b = true → a = b
  | .missing, b, h => by cases b <;> simp_all [same]
  | .num a, b, h => by cases b <;> simp_all [same]
  | .sym a, b, h => by cases b <;> simp_all [same]
  | .binary o l r, b, h => by
    cases b with
    | binary o' l' r' =>
      simp only [same, Bool.and_eq_true, decide_eq_true_eq] at h
      rw [h.1.1, eq_of_same h.1.2, eq_of_same h.2]
    | _ => simp [same] at h
  | .neg x, b, h => by
    cases b with
    | neg y =>
      simp only [same] at h
      rw [eq_of_same h]
    | _ => simp [same] at h
  | .call f as, b, h => by
    cases b with
    | call g bs =>
      simp only [same, Bool.and_eq_true, decide_eq_true_eq] at h
      rw [h.1, eq_of_sameAll h.2]
    | _ => simp [same] at h
  | .stmt x, b, h => by
    cases b with
    | stmt y =>
      simp only [same] at h
      rw [eq_of_same h]
    | _ => simp [same] at h
theorem eq_of_sameAll : ∀ {as bs : List Expr}, sameAll as bs = true → as = bs
  | [], bs, h => by cases bs <;> simp_all [sameAll]
  | a :: as, bs, h => by
    cases bs with
    | nil => simp [sameAll] at h
    | cons b bs =>
      simp only [sameAll, Bool.and_eq_true] at h
      rw [eq_of_same h.1, eq_of_sameAll h.2]
end

mutual
theorem same_refl : ∀ a : Expr, same a a = true
  | .missing => rfl
  | .num _ => by simp [same]
  | .sym _ => by simp [same]
  | .binary _ l r => by simp [same, same_refl l, same_refl r]
  | .neg x => by simp [same, same_refl x]
  | .call _ as => by simp [same, sameAll_refl as]
  | .stmt x => by simp [same, same_refl x]
theorem sameAll_refl : ∀ as : List Expr, sameAll as as = true
  | [] => rfl
  | a :: as => by simp [sameAll, same_refl a, sameAll_refl as]
end

theorem same_iff_eq {a b : Expr} : same a b = true ↔ a = b :=
  ⟨eq_of_same, fun h => h ▸ same_refl a⟩

instance : DecidableEq Expr :=
  fun _ _ => decidable_of_iff _ same_iff_eq

/-! ## Tests on one node -/

def isMissing : Expr → Bool
  | .missing => true
  | _ => false

def isInteger : Expr → Bool
  | .num _ => true
  | _ => false

def isZero : Expr → Bool
  | .num v => v = 0
  | _ => false

def isUnity : Expr → Bool
  | .num v => v = 1
  | _ => false

def isNegative : Expr → Bool
  | .num v => v < 0
  | _ => false

/-- The argument at a position; a call has no argument before its first or after
its last, and nothing else has any. -/
def argument (i : Int) : Expr → Expr
  | .call _ args => if i < 0 then .missing else args.getD i.toNat .missing
  | _ => .missing

/-! ## Occurring variables -/

mutual
def dependsOn (v : String) : Expr → Bool
  | .missing | .num _ => false
  | .sym name => name = v
  | .binary _ l r => dependsOn v l || dependsOn v r
  | .neg x | .stmt x => dependsOn v x
  | .call _ args => anyDependsOn v args
def anyDependsOn (v : String) : List Expr → Bool
  | [] => false
  | a :: as => dependsOn v a || anyDependsOn v as
end

/-- Inserts a name into a strictly increasing list and keeps it so. -/
def insertName (name : String) : List String → List String
  | [] => [name]
  | n :: ns =>
    if name < n then name :: n :: ns
    else if name = n then n :: ns
    else n :: insertName name ns

mutual
/-- Adds the names of a tree to a strictly increasing list. -/
def collectNames (acc : List String) : Expr → List String
  | .missing | .num _ => acc
  | .sym name => insertName name acc
  | .binary _ l r => collectNames (collectNames acc l) r
  | .neg x | .stmt x => collectNames acc x
  | .call _ args => collectNamesAll acc args
def collectNamesAll (acc : List String) : List Expr → List String
  | [] => acc
  | a :: as => collectNamesAll (collectNames acc a) as
end

def freeSymbols (e : Expr) : List String :=
  collectNames [] e

end Expr

end SymbolicCalculus
