import SymbolicCalculus.Error

/-!
# Outcomes

Two runs have the same outcome when both succeed with equal results or both stop
with an error of the same kind. The subtree an error points at and the operations
it is wrapped in do not count. What all errors of a run have in common goes through its
steps.
-/

set_option autoImplicit false

namespace SymbolicCalculus

section
variable {ε ε' α β : Type}

theorem bind_eq_ok {x : Except ε α} {f : α → Except ε β} {b : β} :
    x >>= f = .ok b ↔ ∃ a, x = .ok a ∧ f a = .ok b := by
  cases x with
  | error err => simp [bind, Except.bind]
  | ok a => simp [bind, Except.bind]

theorem bind_eq_error {x : Except ε α} {f : α → Except ε β} {err : ε} :
    x >>= f = .error err ↔ x = .error err ∨ ∃ a, x = .ok a ∧ f a = .error err := by
  cases x with
  | error err' => simp [bind, Except.bind]
  | ok a => simp [bind, Except.bind]

theorem mapError_eq_ok {x : Except ε α} {f : ε → ε'} {a : α} :
    x.mapError f = .ok a ↔ x = .ok a := by
  cases x with
  | error err =>
    constructor
    · intro h
      cases h
    · intro h
      cases h
  | ok b =>
    constructor
    · intro h
      cases h
      rfl
    · intro h
      cases h
      rfl

theorem mapError_eq_error {x : Except ε α} {f : ε → ε'} {err : ε'} :
    x.mapError f = .error err ↔ ∃ e, x = .error e ∧ f e = err := by
  cases x with
  | error e =>
    constructor
    · intro h
      cases h
      exact ⟨e, rfl, rfl⟩
    · rintro ⟨_, h, rfl⟩
      cases h
      rfl
  | ok a =>
    constructor
    · intro h
      cases h
    · rintro ⟨_, h, _⟩
      cases h

theorem mapError_bind (g : ε → ε') (x : Except ε α) (f : α → Except ε β) :
    (x >>= f).mapError g = (x.mapError g >>= fun a => (f a).mapError g) := by
  cases x with
  | error err => rfl
  | ok a => rfl

def FailsOnly (P : ε → Prop) (x : Except ε α) : Prop :=
  ∀ e, x = .error e → P e

namespace FailsOnly

variable {P : ε → Prop}

theorem ok (a : α) : FailsOnly P (.ok a) := by
  intro e h
  cases h

theorem error {e : ε} (he : P e) : FailsOnly P (.error e : Except ε α) := by
  intro e' h
  cases h
  exact he

theorem bind {x : Except ε α} {f : α → Except ε β} (hx : FailsOnly P x)
    (hf : ∀ a, FailsOnly P (f a)) : FailsOnly P (x >>= f) := by
  cases x with
  | ok a => exact hf a
  | error e => exact error (hx e rfl)

theorem mapError {x : Except ε' α} {f : ε' → ε} (hx : FailsOnly (fun e => P (f e)) x) :
    FailsOnly P (x.mapError f) := by
  cases x with
  | ok a => exact ok a
  | error e => exact error (hx e rfl)

end FailsOnly

def Fault.outcome (x : Except Fault α) : Except Kind α :=
  x.mapError Fault.kind

def Error.outcome (x : Except Error α) : Except (Option Kind) α :=
  x.mapError Error.kind?

@[simp] theorem Fault.outcome_ok (a : α) : Fault.outcome (.ok a) = .ok a := rfl

@[simp] theorem Fault.outcome_error (f : Fault) :
    Fault.outcome (.error f : Except Fault α) = .error f.kind := rfl

/-- Steps with the same outcome, followed by steps with the same outcome. -/
theorem Fault.outcome_bind {x y : Except Fault α} {f g : α → Except Fault β}
    (hx : outcome x = outcome y) (hf : ∀ a, outcome (f a) = outcome (g a)) :
    outcome (x >>= f) = outcome (y >>= g) := by
  cases x with
  | ok a =>
    cases y with
    | ok b =>
      obtain rfl : a = b := by simpa using hx
      exact hf a
    | error k => cases hx
  | error k =>
    cases y with
    | ok b => cases hx
    | error k' =>
      have hk : k.kind = k'.kind := by simpa using hx
      show Except.error k.kind = Except.error k'.kind
      rw [hk]

theorem Error.outcome_during (activity : Activity) (x : Except Fault α) :
    Error.outcome (x.mapError fun f => .during activity (.fault f)) =
      (Fault.outcome x).mapError some := by
  cases x with
  | ok a => rfl
  | error f => rfl

end

end SymbolicCalculus
