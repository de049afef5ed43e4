import SymbolicCalculus.Proofs.BatchMachine
import SymbolicCalculus.Proofs.Outcome

/-!
# Batches under every schedule

Whatever the order of the steps, a batch comes to an end. If it is answered with results,
the response of every call is in its place, and if some call found the request given up,
there are no results at all. Two schedules are built at the end, one call after another
and every call refused, and they give the two answers of the service.
-/

set_option autoImplicit false

namespace SymbolicCalculus

/-! ## Places of a valid configuration -/

namespace Config

theorem check_eq_nil {group field : String} {bounds : List (String × Bool)} :
    check group field bounds = [] ↔ ∀ bound ∈ bounds, bound.2 = true := by
  unfold check
  split
  · next bound holds h =>
    constructor
    · intro hnil
      cases hnil
    · intro hall
      have hfails := List.find?_some h
      rw [hall _ (List.mem_of_find?_eq_some h)] at hfails
      cases hfails
  · next h => simpa using h

theorem batchConcurrency_pos {c : Config} (h : c.validate = .ok c) :
    0 < c.limits.batchConcurrency := by
  have hnone : c.violations = [] := by
    unfold validate at h
    split at h
    · assumption
    · cases h
  simp only [violations, limitViolations, List.append_eq_nil_iff, check_eq_nil] at hnone
  have hleast := hnone.1.1.2.2 ("min", decide (1 ≤ c.limits.batchConcurrency)) (by simp [between])
  exact of_decide_eq_true hleast

end Config

namespace Service

/-! ## What holds at every step -/

def Stage.Agrees (expected result : ToolResponse) : Stage → Prop
  | .answered response => response = expected
  | .stored => result = expected
  | _ => True

def Placed (limits : ToolLimits) (calls : List ToolRequest) (stages : List Stage)
    (results : List ToolResponse) : Prop :=
  ∀ (i : Nat) (r : ToolRequest) (stage : Stage) (result : ToolResponse),
    calls[i]? = some r → stages[i]? = some stage → results[i]? = some result →
      stage.Agrees (r.handle limits) result

theorem Placed.enter {limits : ToolLimits} {calls : List ToolRequest} {stages : List Stage}
    {results results' : List ToolResponse} {i : Nat} {old new : Stage}
    (h : Placed limits calls stages results) (hold : stages[i]? = some old)
    (hown : ∀ r result, calls[i]? = some r → results'[i]? = some result →
      new.Agrees (r.handle limits) result)
    (hothers : ∀ j, i ≠ j → results'[j]? = results[j]?) :
    Placed limits calls (stages.set i new) results' := by
  intro j r stage result hr hstage hresult
  by_cases hij : i = j
  · subst hij
    rw [List.getElem?_set_self (List.getElem?_eq_some_iff.mp hold).1] at hstage
    obtain rfl : new = stage := Option.some.inj hstage
    exact hown r result hr hresult
  · rw [List.getElem?_set_ne hij] at hstage
    rw [hothers j hij] at hresult
    exact h j r stage result hr hstage hresult

namespace Batch

/-- The invariant of a batch of these calls under this configuration. -/
structure Coherent (config : Config) (calls : List ToolRequest) (b : Batch) : Prop where
  config_eq : b.service.config = config
  calls_eq : b.calls = calls
  stages_length : b.stages.length = calls.length
  results_length : b.results.length = calls.length
  placed : Placed config.toolLimits calls b.stages b.results
  failure_iff : b.failure.isSome ↔ Stage.refused ∈ b.stages
  failure_cause : ∀ cause, b.failure = some cause → b.cause = some cause
  active_le : (b.active : Int) ≤ config.limits.batchConcurrency

section
variable {config : Config} {calls : List ToolRequest} {b b' : Batch}

theorem coherent_start {s : State} (h : 0 ≤ s.config.limits.batchConcurrency) :
    (start s calls).Coherent s.config calls where
  config_eq := rfl
  calls_eq := rfl
  stages_length := List.length_map _
  results_length := List.length_map _
  placed := by
    intro i r stage result _ hstage _
    obtain rfl : Stage.waiting = stage := by
      obtain ⟨_, _, h⟩ := List.mem_map.mp (List.mem_of_getElem? hstage)
      exact h
    trivial
  failure_iff := by simp [start]
  failure_cause := by simp [start]
  active_le := by
    have hidle : (start s calls).active = 0 := by
      rw [active, List.countP_eq_zero]
      intro stage hmem
      obtain ⟨_, _, rfl⟩ := List.mem_map.mp hmem
      exact Bool.false_ne_true
    rw [hidle]
    exact h

theorem active_enter {i : Nat} {old new : Stage} (h : b.stages[i]? = some old) :
    (b.enter i new).active + old.isActive.toNat = b.active + new.isActive.toNat :=
  countP_set_add Stage.isActive h

theorem Coherent.active_enter_le {i : Nat} {old : Stage} (hb : b.Coherent config calls)
    (h : b.stages[i]? = some old) (hold : old.isActive = true) (new : Stage) :
    ((b.enter i new).active : Int) ≤ config.limits.batchConcurrency := by
  have hsum := @active_enter b i old new h
  have hnew := Bool.toNat_le new.isActive
  have hle := hb.active_le
  rw [hold, Bool.toNat_true] at hsum
  omega

/-- A call that is not refused moves on. It may change the service and its own place. -/
theorem Coherent.enter {i : Nat} {old new : Stage} {service : State} {records : List Log.Record}
    {results : List ToolResponse} (hb : b.Coherent config calls) (h : b.stages[i]? = some old)
    (hold : old ≠ .refused) (hnew : new ≠ .refused) (hservice : service.config = config)
    (hresults : results.length = calls.length)
    (hplaced : Placed config.toolLimits calls (b.stages.set i new) results)
    (hactive : ((b.enter i new).active : Int) ≤ config.limits.batchConcurrency) :
    Coherent config calls
      { b.enter i new with service := service, records := records, results := results } where
  config_eq := hservice
  calls_eq := hb.calls_eq
  stages_length := List.length_set.trans hb.stages_length
  results_length := hresults
  placed := hplaced
  failure_iff := by
    have hmem := @mem_set_iff b.stages i old new .refused h hold.symm
    rw [Batch.enter, hmem, or_iff_right hnew.symm]
    exact hb.failure_iff
  failure_cause := hb.failure_cause
  active_le := hactive

theorem Coherent.turnAway {i : Nat} {cause : Cause} (hb : b.Coherent config calls)
    (h : b.stages[i]? = some .started) (hcause : b.cause = some cause) :
    (b.turnAway i cause).Coherent config calls where
  config_eq := hb.config_eq
  calls_eq := hb.calls_eq
  stages_length := List.length_set.trans hb.stages_length
  results_length := hb.results_length
  placed := hb.placed.enter h (fun _ _ _ _ => trivial) fun _ _ => rfl
  failure_iff := by
    have hrefused : Stage.refused ∈ b.stages.set i .refused :=
      List.mem_set (List.getElem?_eq_some_iff.mp h).1 _
    simpa [Batch.turnAway, Batch.enter] using hrefused
  failure_cause := by
    intro cause' hcause'
    show b.cause = some cause'
    cases hfailure : b.failure with
    | none => simpa [Batch.turnAway, hfailure, hcause] using hcause'
    | some first =>
      obtain rfl : first = cause' := by simpa [Batch.turnAway, hfailure] using hcause'
      exact hb.failure_cause first hfailure
  active_le := hb.active_enter_le h rfl .refused

theorem Coherent.step (hb : b.Coherent config calls) (h : Step b b') : b'.Coherent config calls := by
  cases h with
  | @start i h hroom =>
    refine hb.enter h (by simp) (by simp) hb.config_eq hb.results_length ?_ ?_
    · exact hb.placed.enter h (fun _ _ _ _ => trivial) fun _ _ => rfl
    · have hsum : (b.enter i .started).active + 0 = b.active + 1 := active_enter h
      rw [hb.config_eq] at hroom
      omega
  | proceed h _ =>
    refine hb.enter h (by simp) (by simp) hb.config_eq hb.results_length ?_ ?_
    · exact hb.placed.enter h (fun _ _ _ _ => trivial) fun _ _ => rfl
    · exact hb.active_enter_le h rfl .cleared
  | refuse h hcause => exact hb.turnAway h hcause
  | call h hcall =>
    refine hb.enter h (by simp) (by simp) hb.config_eq hb.results_length ?_ ?_
    · refine hb.placed.enter h (fun r' _ hr' _ => ?_) fun _ _ => rfl
      rw [hb.calls_eq, hr'] at hcall
      obtain rfl := Option.some.inj hcall
      show r'.handle b.service.config.toolLimits = r'.handle config.toolLimits
      rw [hb.config_eq]
    · exact hb.active_enter_le h rfl _
  | @store i response h =>
    refine hb.enter h (by simp) (by simp) hb.config_eq ?_ ?_ ?_
    · exact List.length_set.trans hb.results_length
    · refine hb.placed.enter h (fun r result hr hresult => ?_) fun j hij => List.getElem?_set_ne hij
      -- The response was computed from the call at its own position.
      obtain ⟨hi, _⟩ := List.getElem?_eq_some_iff.mp hresult
      rw [List.length_set] at hi
      have hagrees := hb.placed i r _ b.results[i] hr h (List.getElem?_eq_getElem hi)
      rw [List.getElem?_set_self hi] at hresult
      exact (Option.some.inj hresult).symm.trans hagrees
    · exact hb.active_enter_le h rfl .stored
  | giveUp h =>
    exact { hb with failure_cause := fun cause hc => by simp [hb.failure_cause cause hc] at h }

theorem Coherent.reaches (hb : b.Coherent config calls) (h : Reaches b b') :
    b'.Coherent config calls := by
  induction h with
  | refl => exact hb
  | tail _ hstep ih => exact ih.step hstep

/-! ## Every schedule comes to an end -/

theorem remaining_lt_of_set {i : Nat} {old new : Stage} (h : b.stages[i]? = some old)
    (hlt : new.distance < old.distance) (hstages : b'.stages = b.stages.set i new)
    (hcause : b'.cause = b.cause) : b'.remaining < b.remaining := by
  have hsum := @distanceAll_set b.stages i old new h
  rw [remaining, remaining, hstages, hcause]
  omega

theorem Step.remaining_lt (h : Step b b') : b'.remaining < b.remaining := by
  cases h with
  | start h _ => exact remaining_lt_of_set h (by simp [Stage.distance]) rfl rfl
  | proceed h _ => exact remaining_lt_of_set h (by simp [Stage.distance]) rfl rfl
  | refuse h _ => exact remaining_lt_of_set h (by simp [Stage.distance]) rfl rfl
  | call h _ => exact remaining_lt_of_set h (by simp [Stage.distance]) rfl rfl
  | store h => exact remaining_lt_of_set h (by simp [Stage.distance]) rfl rfl
  | giveUp h => simp [remaining, Batch.giveUp, h]

theorem Coherent.active_step {i : Nat} {stage : Stage} (hb : b.Coherent config calls)
    (h : b.stages[i]? = some stage) (hactive : stage.isActive = true) : ∃ b', Step b b' := by
  cases stage with
  | started =>
    cases hcause : b.cause with
    | none => exact ⟨_, .proceed h hcause⟩
    | some cause => exact ⟨_, .refuse h hcause⟩
  | cleared =>
    have hi : i < b.calls.length := by
      rw [hb.calls_eq, ← hb.stages_length]
      exact (List.getElem?_eq_some_iff.mp h).1
    exact ⟨_, .call h (List.getElem?_eq_getElem hi)⟩
  | answered response => exact ⟨_, .store h⟩
  | waiting => cases hactive
  | stored => cases hactive
  | refused => cases hactive

/-- As long as a call is not over, some call can take a step: if it is not an active one,
there is a place for one that waits. -/
theorem Coherent.progress (hb : b.Coherent config calls)
    (hplace : 0 < config.limits.batchConcurrency) (hopen : ¬ b.Settled) : ∃ b', Step b b' := by
  by_cases hactive : 0 < b.active
  · obtain ⟨stage, hmem, hstage⟩ := List.countP_pos_iff.mp hactive
    obtain ⟨i, hi⟩ := List.mem_iff_getElem?.mp hmem
    exact hb.active_step hi hstage
  · obtain ⟨stage, hmem, hover⟩ : ∃ stage ∈ b.stages, stage.isOver = false := by
      simpa [Settled] using hopen
    have hidle : ¬ stage.isActive = true := fun h =>
      hactive (List.countP_pos_iff.mpr ⟨stage, hmem, h⟩)
    obtain rfl : stage = .waiting := by
      cases stage <;> simp_all [Stage.isOver, Stage.isActive]
    obtain ⟨i, hi⟩ := List.mem_iff_getElem?.mp hmem
    refine ⟨_, .start hi ?_⟩
    rw [hb.config_eq]
    omega

theorem Coherent.completes (hb : b.Coherent config calls)
    (hplace : 0 < config.limits.batchConcurrency) : ∃ b', Reaches b b' ∧ b'.Settled := by
  induction hn : b.remaining using Nat.strongRecOn generalizing b with
  | ind n ih =>
    by_cases hsettled : b.Settled
    · exact ⟨b, .refl, hsettled⟩
    · obtain ⟨next, hstep⟩ := hb.progress hplace hsettled
      obtain ⟨b', hreaches, hsettled'⟩ := ih _ (hn ▸ hstep.remaining_lt) (hb.step hstep) rfl
      exact ⟨b', .head hstep hreaches, hsettled'⟩

/-! ## Answers of settled batches -/

theorem Coherent.results_eq (hb : b.Coherent config calls) (hsettled : b.Settled)
    (hrefused : Stage.refused ∉ b.stages) :
    b.results = calls.map (·.handle config.toolLimits) := by
  refine List.ext_getElem (by rw [hb.results_length, List.length_map]) fun i hi _ => ?_
  rw [List.getElem_map]
  have hstages : i < b.stages.length := by rw [hb.stages_length, ← hb.results_length]; exact hi
  have hcalls : i < calls.length := hb.results_length ▸ hi
  have hstored : b.stages[i] = .stored := by
    have hover := hsettled b.stages[i] (List.getElem_mem hstages)
    have hne : b.stages[i] ≠ .refused := fun h => hrefused (h ▸ List.getElem_mem hstages)
    cases hstage : b.stages[i] <;> simp_all [Stage.isOver]
  exact hb.placed i calls[i] .stored b.results[i] (List.getElem?_eq_getElem hcalls)
    (by rw [List.getElem?_eq_getElem hstages, hstored]) (List.getElem?_eq_getElem hi)

theorem Coherent.answer_results (hb : b.Coherent config calls) (hsettled : b.Settled)
    (hrefused : Stage.refused ∉ b.stages) :
    b.answer.result = .json 200
      (.obj [("results", .arr ((calls.map (·.handle config.toolLimits)).map (·.toJson)))]) := by
  have hfailure : b.failure = none := by
    rw [← hb.failure_iff] at hrefused
    simpa using hrefused
  rw [answer, hfailure, ← hb.results_eq hsettled hrefused]

theorem Coherent.answer_refused (hb : b.Coherent config calls)
    (hrefused : Stage.refused ∈ b.stages) :
    ∃ cause, b.cause = some cause ∧
      b.answer.result = .json 503
        (.obj [("error", .str ("batch aborted: " ++ cause.message)), ("kind", .str "bad_request")]) := by
  obtain ⟨cause, hfailure⟩ := Option.isSome_iff_exists.mp (hb.failure_iff.mpr hrefused)
  refine ⟨cause, hb.failure_cause cause hfailure, ?_⟩
  rw [answer, hfailure]
  cases cause <;> rfl

/-! ## One call after another -/

theorem enter_enter (b : Batch) (i : Nat) (old new : Stage) :
    (b.enter i old).enter i new = b.enter i new := by
  simp [enter]

theorem getElem?_enter {i : Nat} {old : Stage} (h : b.stages[i]? = some old) (new : Stage) :
    (b.enter i new).stages[i]? = some new :=
  List.getElem?_set_self (List.getElem?_eq_some_iff.mp h).1

def finish (b : Batch) (i : Nat) (o : Outcome ToolResponse) : Batch :=
  { b.enter i .stored with
    service := o.state
    records := b.records ++ o.records
    results := b.results.set i o.result }

/-- A waiting call can be run to its end while the others stand still. -/
theorem reaches_finish {i : Nat} {r : ToolRequest} (h : b.stages[i]? = some .waiting)
    (hroom : (b.active : Int) < b.service.config.limits.batchConcurrency) (hcause : b.cause = none)
    (hcall : b.calls[i]? = some r) : Reaches b (b.finish i (b.service.call r)) := by
  have hstart : Step b (b.enter i .started) := .start h hroom
  have hproceed : Step (b.enter i .started) (b.enter i .cleared) := by
    rw [← enter_enter b i .started .cleared]
    exact .proceed (getElem?_enter h .started) hcause
  have hcall : Step (b.enter i .cleared) (b.receive i (b.service.call r)) := by
    have hstep := @Step.call (b.enter i .cleared) i r (getElem?_enter h .cleared) hcall
    rwa [receive, enter_enter] at hstep
  have hstore := @Step.store (b.receive i (b.service.call r)) i _ (getElem?_enter h _)
  have hdone := ((Relation.ReflTransGen.single hstart).tail hproceed).tail hcall |>.tail hstore
  simpa [receive, store, finish, enter] using hdone

theorem reaches_turnAway {i : Nat} {cause : Cause} (h : b.stages[i]? = some .waiting)
    (hroom : (b.active : Int) < b.service.config.limits.batchConcurrency)
    (hcause : b.cause = some cause) : Reaches b (b.turnAway i cause) := by
  have hstart : Step b (b.enter i .started) := .start h hroom
  have hrefuse := @Step.refuse (b.enter i .started) i cause (getElem?_enter h .started) hcause
  rw [turnAway, enter_enter] at hrefuse
  exact (Relation.ReflTransGen.single hstart).tail hrefuse

/-- The batch stands between two calls: those before are over and `rest` is waiting. -/
structure Between (past : List Stage) (rest : List ToolRequest) (b : Batch) : Prop where
  calls_drop : b.calls.drop past.length = rest
  stages_eq : b.stages = past ++ rest.map fun _ => .waiting
  past_over : ∀ stage ∈ past, stage.isOver = true
  place : 0 < b.service.config.limits.batchConcurrency

section
variable {past : List Stage} {r : ToolRequest} {rest : List ToolRequest}

theorem between_start {s : State} (h : 0 < s.config.limits.batchConcurrency) :
    Between [] calls (start s calls) where
  calls_drop := rfl
  stages_eq := rfl
  past_over := by simp
  place := h

theorem Between.settled (hb : Between past [] b) : b.Settled := by
  rw [Settled, hb.stages_eq]
  simpa using hb.past_over

theorem Between.waiting (hb : Between past (r :: rest) b) :
    b.stages[past.length]? = some .waiting := by
  simp [hb.stages_eq]

theorem Between.call (hb : Between past (r :: rest) b) : b.calls[past.length]? = some r := by
  rw [← List.head?_drop, hb.calls_drop]
  rfl

theorem Between.room (hb : Between past rest b) :
    (b.active : Int) < b.service.config.limits.batchConcurrency := by
  have hidle : b.active = 0 := by
    rw [active, hb.stages_eq, List.countP_eq_zero]
    intro stage hmem
    rcases List.mem_append.mp hmem with hmem | hmem
    · have hover := hb.past_over stage hmem
      cases stage <;> simp_all [Stage.isOver, Stage.isActive]
    · obtain ⟨_, _, rfl⟩ := List.mem_map.mp hmem
      simp [Stage.isActive]
  rw [hidle]
  exact hb.place

theorem Between.next {stage : Stage} (hb : Between past (r :: rest) b) (hover : stage.isOver = true)
    (hcalls : b'.calls = b.calls) (hstages : b'.stages = b.stages.set past.length stage)
    (hconfig : b'.service.config = b.service.config) : Between (past ++ [stage]) rest b' where
  calls_drop := by
    rw [hcalls, List.length_append, ← List.drop_drop, hb.calls_drop]
    rfl
  stages_eq := by
    rw [hstages, hb.stages_eq]
    simp
  past_over := by
    intro st hmem
    rcases List.mem_append.mp hmem with hmem | hmem
    · exact hb.past_over st hmem
    · rw [List.mem_singleton.mp hmem]
      exact hover
  place := hconfig ▸ hb.place

/-- The calls one after another leave what the sequential loop leaves. -/
theorem Between.reaches_callAll (hb : Between past rest b) (hcause : b.cause = none) :
    ∃ b', Reaches b b' ∧ b'.Settled ∧ b'.failure = b.failure ∧
      b'.service = (b.service.callAll rest).state ∧
      b'.records = b.records ++ (b.service.callAll rest).records := by
  induction rest generalizing b past with
  | nil => exact ⟨b, .refl, hb.settled, rfl, rfl, (List.append_nil _).symm⟩
  | cons r rest ih =>
    have hfirst := reaches_finish hb.waiting hb.room hcause hb.call
    have hnext : Between (past ++ [.stored]) rest (b.finish past.length (b.service.call r)) :=
      hb.next rfl rfl rfl rfl
    obtain ⟨b', hreaches, hsettled, hfailure, hservice, hrecords⟩ := ih hnext hcause
    exact ⟨b', hfirst.trans hreaches, hsettled, hfailure, hservice,
      hrecords.trans (List.append_assoc _ _ _)⟩

/-- Once the request is given up the calls are refused one after another. -/
theorem Between.reaches_refusals {cause : Cause} (hb : Between past rest b)
    (hcause : b.cause = some cause) (hsome : rest ≠ [] ∨ b.failure = some cause)
    (hfirst : b.failure = none ∨ b.failure = some cause) :
    ∃ b', Reaches b b' ∧ b'.Settled ∧ b'.failure = some cause ∧ b'.service = b.service ∧
      b'.records = b.records := by
  induction rest generalizing b past with
  | nil => exact ⟨b, .refl, hb.settled, hsome.resolve_left (by simp), rfl, rfl⟩
  | cons r rest ih =>
    have hrefused := reaches_turnAway hb.waiting hb.room hcause
    have hnext : Between (past ++ [.refused]) rest (b.turnAway past.length cause) :=
      hb.next rfl rfl rfl rfl
    have hfailure : (b.turnAway past.length cause).failure = some cause := by
      rcases hfirst with h | h <;> simp [turnAway, h]
    obtain ⟨b', hreaches, hrest⟩ := ih hnext hcause (Or.inr hfailure) (Or.inr hfailure)
    exact ⟨b', hrefused.trans hreaches, hrest⟩

end

end

end Batch

/-! ## The sequential loop -/

theorem callAll_result (s : State) (calls : List ToolRequest) :
    (s.callAll calls).result = calls.map (·.handle s.config.toolLimits) := by
  induction calls generalizing s with
  | nil => rfl
  | cons r rest ih =>
    rw [State.callAll, List.map_cons, ih]
    rfl

theorem readBody_checked {α : Type} {limit : Nat} {read : Json → Option α}
    {check : α → List FieldError} {body : String} {a : α}
    (h : readBody limit read check body = .ok a) : check a = [] := by
  obtain ⟨⟨v, rest⟩, _, hv⟩ := bind_eq_ok.mp h
  simp only at hv
  split at hv
  · cases hv
  · split at hv
    · cases hv
    · split at hv
      · next hcheck =>
        cases hv
        exact hcheck
      · cases hv

theorem readBatch_ne_nil {limit : Nat} {body : String} {calls : List ToolRequest}
    (h : readBatch limit body = .ok calls) : calls ≠ [] := by
  obtain ⟨batch, hbatch, hcalls⟩ := bind_eq_ok.mp h
  obtain rfl := Except.ok.inj hcalls
  have hcheck := readBody_checked hbatch
  rintro hnil
  cases hbatchCalls : batch.calls with
  | none => simp [batchErrors, hbatchCalls] at hcheck
  | some calls =>
    obtain rfl : calls = [] := by simpa [hbatchCalls] using hnil
    simp [batchErrors, hbatchCalls] at hcheck

theorem answerBatch_stands {s : State} {body : String} {calls : List ToolRequest}
    (hread : readBatch s.bodyLimit body = .ok calls)
    (hsize : (calls.length : Int) ≤ s.config.limits.maxBatch) :
    s.answerBatch body false =
      ⟨((s.countBatch calls.length).callAll calls).state,
        ((s.countBatch calls.length).callAll calls).records,
        .json 200 (.obj [("results",
          .arr (((s.countBatch calls.length).callAll calls).result.map (·.toJson)))])⟩ := by
  simp only [State.answerBatch, hread, if_neg (Int.not_lt.mpr hsize)]
  rfl

theorem answerBatch_cancelled {s : State} {body : String} {calls : List ToolRequest}
    (hread : readBatch s.bodyLimit body = .ok calls)
    (hsize : (calls.length : Int) ≤ s.config.limits.maxBatch) :
    s.answerBatch body true =
      ⟨s.countBatch calls.length,
        [⟨.warn, "batch aborted",
          [("error", .text Cause.cancelled.message), ("calls", .int calls.length)]⟩],
        .refusal 503 ("batch aborted: " ++ Cause.cancelled.message)⟩ := by
  have hmessage : "batch aborted: " ++ Cause.cancelled.message = "batch aborted: context canceled" := by
    decide
  simp only [State.answerBatch, hread, if_neg (Int.not_lt.mpr hsize), hmessage]
  rfl

/-- Both answers of the service to a batch are answers under some schedule. -/
theorem answerBatch_scheduled {s : State} {body : String} {calls : List ToolRequest}
    (hplace : 0 < s.config.limits.batchConcurrency) (hread : readBatch s.bodyLimit body = .ok calls)
    (hsize : (calls.length : Int) ≤ s.config.limits.maxBatch) (cancelled : Bool) :
    ∃ b, Batch.Reaches (.start (s.countBatch calls.length) calls) b ∧ b.Settled ∧
      b.answer = s.answerBatch body cancelled := by
  have hstart : (Batch.start (s.countBatch calls.length) calls).Coherent s.config calls :=
    @Batch.coherent_start calls (s.countBatch calls.length) (Int.le_of_lt hplace)
  have hbetween : Batch.Between [] calls (.start (s.countBatch calls.length) calls) :=
    Batch.between_start hplace
  cases cancelled with
  | false =>
    obtain ⟨b, hreaches, hsettled, hfailure, hservice, hrecords⟩ := hbetween.reaches_callAll rfl
    have hb := hstart.reaches hreaches
    have hrefused : Stage.refused ∉ b.stages := by simp [← hb.failure_iff, hfailure, Batch.start]
    have hresults : b.results = ((s.countBatch calls.length).callAll calls).result := by
      rw [callAll_result]
      exact hb.results_eq hsettled hrefused
    refine ⟨b, hreaches, hsettled, ?_⟩
    rw [answerBatch_stands hread hsize, Batch.answer, hfailure, hservice, hrecords, hresults]
    rfl
  | true =>
    have hgiveUp : Batch.Step _ (Batch.giveUp (.start (s.countBatch calls.length) calls) .cancelled) :=
      .giveUp rfl
    have hbetween' : Batch.Between [] calls
        (Batch.giveUp (.start (s.countBatch calls.length) calls) .cancelled) :=
      { hbetween with }
    obtain ⟨b, hreaches, hsettled, hfailure, hservice, hrecords⟩ :=
      hbetween'.reaches_refusals rfl (Or.inl (readBatch_ne_nil hread)) (Or.inl rfl)
    have hb := hstart.reaches (.head hgiveUp hreaches)
    refine ⟨b, .head hgiveUp hreaches, hsettled, ?_⟩
    rw [answerBatch_cancelled hread hsize, Batch.answer, hfailure, hservice, hrecords, hb.calls_eq]
    rfl

/-! ## Every schedule -/

/-- A batch that is not too large is taken up, and every schedule of it comes to an end with
no more calls at work than allowed. At the end it is answered with the response of every
call, in the order of the calls and as one call after another gives them, unless some call
found the request given up, and then with the cause alone. The answers of the service are
among those of the schedules. -/
theorem batch_every_schedule (s : State) (hconfig : s.config.validate = .ok s.config)
    (calls : List ToolRequest) (hsize : (calls.length : Int) ≤ s.config.limits.maxBatch) :
    ∃ first, s.acceptBatch calls = .ok first ∧
      (∀ b, first.Reaches b →
        (b.active : Int) ≤ s.config.limits.batchConcurrency ∧
        (∀ b', b.Step b' → b'.remaining < b.remaining) ∧
        ∃ b', b.Reaches b' ∧ b'.Settled) ∧
      (∀ b, first.Reaches b → b.Settled →
        (b.answer.result.status = 200 →
          ∃ results : List ToolResponse,
            b.answer.result = .json 200 (.obj [("results", .arr (results.map (·.toJson)))]) ∧
            results.length = calls.length ∧
            (∀ (i : Nat) (r : ToolRequest), calls[i]? = some r →
              results[i]? = some (r.handle s.config.toolLimits)) ∧
            results = (s.callAll calls).result) ∧
        (Stage.refused ∉ b.stages → b.answer.result.status = 200) ∧
        (Stage.refused ∈ b.stages →
          ∃ cause, b.cause = some cause ∧
            b.answer.result = .json 503
              (.obj [("error", .str ("batch aborted: " ++ cause.message)),
                ("kind", .str "bad_request")]))) ∧
      ∀ (body : String) (cancelled : Bool), readBatch s.bodyLimit body = .ok calls →
        ∃ b, first.Reaches b ∧ b.Settled ∧ b.answer = s.answerBatch body cancelled := by
  have hplace := Config.batchConcurrency_pos hconfig
  have hstart : (Batch.start (s.countBatch calls.length) calls).Coherent s.config calls :=
    @Batch.coherent_start calls (s.countBatch calls.length) (Int.le_of_lt hplace)
  refine ⟨.start (s.countBatch calls.length) calls, if_neg (Int.not_lt.mpr hsize), ?_, ?_, ?_⟩
  · intro b hreaches
    have hb := hstart.reaches hreaches
    exact ⟨hb.active_le, fun _ => Batch.Step.remaining_lt, hb.completes hplace⟩
  · intro b hreaches hsettled
    have hb := hstart.reaches hreaches
    refine ⟨fun hstatus => ?_, fun hrefused => ?_, hb.answer_refused⟩
    · have hrefused : Stage.refused ∉ b.stages := by
        intro h
        obtain ⟨cause, _, hanswer⟩ := hb.answer_refused h
        rw [hanswer] at hstatus
        cases hstatus
      refine ⟨_, hb.answer_results hsettled hrefused, List.length_map _, ?_, ?_⟩
      · intro i r hr
        rw [List.getElem?_map, hr]
        rfl
      · exact (callAll_result s calls).symm
    · rw [hb.answer_results hsettled hrefused]
      rfl
  · intro body cancelled hread
    exact answerBatch_scheduled hplace hread hsize cancelled

/-- Two calls under the default settings, the first of which fails. They overtake each other
and the request is given up while they are at work, and both are answered. If the request
is given up after the first and before the second, neither is. -/
theorem batch_every_schedule_pair :
    let s : State := ⟨Config.default, none⟩
    let calls : List ToolRequest := [⟨"integrate", []⟩, ⟨"mcp_spec", []⟩]
    (∃ b, (Batch.start s calls).Reaches b ∧ b.cause = some .deadline ∧
      ∃ results : List ToolResponse,
        b.answer.result = .json 200 (.obj [("results", .arr (results.map (·.toJson)))]) ∧
        results[0]? = some (.refusal "unknown tool: integrate" "unknown_tool") ∧
        results[1]? = some ⟨some Tool.schemaJson, "", "", ""⟩) ∧
    ∃ b, (Batch.start s calls).Reaches b ∧ .stored ∈ b.stages ∧
      b.answer.result = .json 503
        (.obj [("error", .str "batch aborted: context deadline exceeded"),
          ("kind", .str "bad_request")]) := by
  intro s calls
  have hviolations : s.config.violations = [] := by decide
  have hconfig : s.config.validate = .ok s.config := by rw [Config.validate, hviolations]
  have hfails : ToolRequest.handle s.config.toolLimits ⟨"integrate", []⟩ =
      .refusal "unknown tool: integrate" "unknown_tool" := by rfl
  have hschema : ToolRequest.handle s.config.toolLimits ⟨"mcp_spec", []⟩ =
      ⟨some Tool.schemaJson, "", "", ""⟩ := by rfl
  obtain ⟨first, hfirst, -, hend, -⟩ := batch_every_schedule s hconfig calls (by decide)
  obtain rfl : Batch.start s calls = first := Except.ok.inj hfirst
  constructor
  · obtain ⟨b, hrun, hstages, hcause⟩ : ∃ b, (Batch.start s calls).Reaches b ∧
        b.stages = [.stored, .stored] ∧ b.cause = some .deadline :=
      ⟨_, .head (.start (i := 1) rfl (by decide)) <|
        .head (.start (i := 0) rfl (by decide)) <|
        .head (.proceed (i := 1) rfl rfl) <|
        .head (.call (i := 1) rfl rfl) <|
        .head (.proceed (i := 0) rfl rfl) <|
        .head (@Batch.Step.giveUp _ .deadline rfl) <|
        .head (.call (i := 0) rfl rfl) <|
        .head (.store (i := 0) rfl) <|
        .single (.store (i := 1) rfl), rfl, rfl⟩
    obtain ⟨hresults, hstands, _⟩ := hend b hrun (by simp [Batch.Settled, hstages, Stage.isOver])
    obtain ⟨results, hanswer, _, hplaces, _⟩ := hresults (hstands (by simp [hstages]))
    refine ⟨b, hrun, hcause, results, hanswer, ?_, ?_⟩
    · rw [hplaces 0 _ rfl, hfails]
    · rw [hplaces 1 _ rfl, hschema]
  · obtain ⟨b, hrun, hstages, hcause⟩ : ∃ b, (Batch.start s calls).Reaches b ∧
        b.stages = [.stored, .refused] ∧ b.cause = some .deadline :=
      ⟨_, .head (.start (i := 0) rfl (by decide)) <|
        .head (.proceed (i := 0) rfl rfl) <|
        .head (.call (i := 0) rfl rfl) <|
        .head (.store (i := 0) rfl) <|
        .head (@Batch.Step.giveUp _ .deadline rfl) <|
        .head (.start (i := 1) rfl (by decide)) <|
        .single (.refuse (i := 1) rfl rfl), rfl, rfl⟩
    obtain ⟨_, _, hrefused⟩ := hend b hrun (by simp [Batch.Settled, hstages, Stage.isOver])
    obtain ⟨cause, hcause', hanswer⟩ := hrefused (by simp [hstages])
    obtain rfl : Cause.deadline = cause := Option.some.inj (hcause.symm.trans hcause')
    exact ⟨b, hrun, by simp [hstages], hanswer⟩

end Service

end SymbolicCalculus
