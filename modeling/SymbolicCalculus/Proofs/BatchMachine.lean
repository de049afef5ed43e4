import Mathlib.Logic.Relation
import SymbolicCalculus.Service.Exchange

/-!
# Batches under way

The calls of a batch run at the same time, as many as the configuration allows, and
write their responses into one list. A step of the batch is a step of one of its calls,
or the request is given up. A call is started, looks whether the request has been given
up, computes its response and stores it, and any steps of other calls may come between.
-/

set_option autoImplicit false

namespace SymbolicCalculus.Service

/-! ## Batches -/

inductive Cause where
  | cancelled
  | deadline
  deriving DecidableEq, Repr

def Cause.message : Cause → String
  | .cancelled => "context canceled"
  | .deadline => "context deadline exceeded"

/-- How far a call has come. A call is `cleared` once it has seen that the request
stands, and `refused` if it has seen that it was given up. -/
inductive Stage where
  | waiting
  | started
  | cleared
  | answered (response : ToolResponse)
  | stored
  | refused

namespace Stage

def isActive : Stage → Bool
  | .started | .cleared | .answered _ => true
  | _ => false

def isOver : Stage → Bool
  | .stored | .refused => true
  | _ => false

def distance : Stage → Nat
  | .waiting => 4
  | .started => 3
  | .cleared => 2
  | .answered _ => 1
  | .stored | .refused => 0

def distanceAll : List Stage → Nat
  | [] => 0
  | stage :: rest => stage.distance + distanceAll rest

end Stage

/-- A batch under way. `cause` is there once the request has been given up, and `failure`
is the first error that a call has ended with. -/
structure Batch where
  service : State
  records : List Log.Record
  calls : List ToolRequest
  stages : List Stage
  results : List ToolResponse
  cause : Option Cause
  failure : Option Cause

namespace Batch

def start (s : State) (calls : List ToolRequest) : Batch where
  service := s
  records := []
  calls := calls
  stages := calls.map fun _ => .waiting
  results := calls.map fun _ => ⟨none, "", "", ""⟩
  cause := none
  failure := none

def enter (b : Batch) (i : Nat) (stage : Stage) : Batch :=
  { b with stages := b.stages.set i stage }

def receive (b : Batch) (i : Nat) (o : Outcome ToolResponse) : Batch :=
  { b.enter i (.answered o.result) with service := o.state, records := b.records ++ o.records }

def store (b : Batch) (i : Nat) (response : ToolResponse) : Batch :=
  { b.enter i .stored with results := b.results.set i response }

/-- A call ends with the cause; only the first error of a batch is kept. -/
def turnAway (b : Batch) (i : Nat) (cause : Cause) : Batch :=
  { b.enter i .refused with failure := b.failure.or (some cause) }

def giveUp (b : Batch) (cause : Cause) : Batch :=
  { b with cause := some cause }

def active (b : Batch) : Nat :=
  b.stages.countP Stage.isActive

def Settled (b : Batch) : Prop :=
  ∀ stage ∈ b.stages, stage.isOver = true

def remaining (b : Batch) : Nat :=
  Stage.distanceAll b.stages + b.cause.isNone.toNat

def answer (b : Batch) : Outcome Answer :=
  match b.failure with
  | none => ⟨b.service, b.records, .json 200 (.obj [("results", .arr (b.results.map (·.toJson)))])⟩
  | some cause =>
    ⟨b.service,
      b.records ++ [⟨.warn, "batch aborted",
        [("error", .text cause.message), ("calls", .int b.calls.length)]⟩],
      .refusal 503 ("batch aborted: " ++ cause.message)⟩

/-- One step of a batch. A call that ends with an error gives the request up for the others
too; this is no step of its own, since the only such error is that it is given up already. -/
inductive Step (b : Batch) : Batch → Prop
  | start {i : Nat} (h : b.stages[i]? = some .waiting)
      (hroom : (b.active : Int) < b.service.config.limits.batchConcurrency) :
      Step b (b.enter i .started)
  | proceed {i : Nat} (h : b.stages[i]? = some .started) (hstands : b.cause = none) :
      Step b (b.enter i .cleared)
  | refuse {i : Nat} {cause : Cause} (h : b.stages[i]? = some .started)
      (hcause : b.cause = some cause) :
      Step b (b.turnAway i cause)
  | call {i : Nat} {r : ToolRequest} (h : b.stages[i]? = some .cleared)
      (hcall : b.calls[i]? = some r) :
      Step b (b.receive i (b.service.call r))
  | store {i : Nat} {response : ToolResponse} (h : b.stages[i]? = some (.answered response)) :
      Step b (b.store i response)
  | giveUp {cause : Cause} (h : b.cause = none) : Step b (b.giveUp cause)

abbrev Reaches : Batch → Batch → Prop :=
  Relation.ReflTransGen Step

end Batch

def State.countBatch (s : State) (size : Nat) : State :=
  { s with counters := s.counters.map fun c => c.observeBatch size }

/-- A batch of calls is taken up unless there are too many. -/
def State.acceptBatch (s : State) (calls : List ToolRequest) : Except Answer Batch :=
  if s.config.limits.maxBatch < calls.length then
    .error (.refusal 400 (batchTooLarge calls.length s.config.limits.maxBatch))
  else
    .ok (.start (s.countBatch calls.length) calls)

/-! ## Entering a stage -/

section
variable {stages : List Stage} {i : Nat} {old new stage : Stage}

theorem distanceAll_set (h : stages[i]? = some old) :
    Stage.distanceAll (stages.set i new) + old.distance =
      Stage.distanceAll stages + new.distance := by
  induction stages generalizing i with
  | nil => simp at h
  | cons st rest ih =>
    cases i with
    | zero =>
      obtain rfl : st = old := by simpa using h
      simp only [List.set_cons_zero, Stage.distanceAll]
      omega
    | succ i =>
      have := ih (by simpa using h)
      simp only [List.set_cons_succ, Stage.distanceAll]
      omega

theorem countP_set_add (p : Stage → Bool) (h : stages[i]? = some old) :
    (stages.set i new).countP p + (p old).toNat = stages.countP p + (p new).toNat := by
  obtain ⟨hi, rfl⟩ := List.getElem?_eq_some_iff.mp h
  rw [List.countP_set hi]
  cases hold : p stages[i] with
  | false => cases p new <;> simp
  | true =>
    have hpos : 0 < stages.countP p :=
      List.countP_pos_iff.mpr ⟨stages[i], List.getElem_mem hi, hold⟩
    cases p new <;> simp <;> omega

theorem mem_set_iff (h : stages[i]? = some old) (hne : stage ≠ old) :
    stage ∈ stages.set i new ↔ stage = new ∨ stage ∈ stages := by
  have hi : i < stages.length := (List.getElem?_eq_some_iff.mp h).1
  constructor
  · intro hmem
    exact (List.mem_or_eq_of_mem_set hmem).symm
  · rintro (rfl | hmem)
    · exact List.mem_set hi _
    · obtain ⟨j, hj⟩ := List.mem_iff_getElem?.mp hmem
      have hij : i ≠ j := by
        rintro rfl
        rw [h] at hj
        exact hne (Option.some.inj hj).symm
      exact List.mem_iff_getElem?.mpr ⟨j, by rw [List.getElem?_set_ne hij, hj]⟩

end

end SymbolicCalculus.Service
