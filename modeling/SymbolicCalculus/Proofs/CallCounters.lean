import Mathlib.Data.List.Lex
import Mathlib.Data.String.Basic
import SymbolicCalculus.Proofs.BatchSchedule
import SymbolicCalculus.Proofs.RequestBody
import SymbolicCalculus.Proofs.ToolResponses

/-!
# What the counters of calls count

After any run of requests the counters hold one count for each call that was executed,
under the tool and the outcome of that call and under nothing else. The calls of a batch
may be at work in any order. No name that a caller chooses becomes a label: a call of an
unknown tool is counted under one label for all of them.
-/

set_option autoImplicit false

namespace SymbolicCalculus.Service

/-! ## Tallies -/

namespace Tally

variable {t : Tally} {seen seen' : List Labels} {labels other : Labels} {n : Nat}

def Increasing (t : Tally) : Prop :=
  t.Pairwise fun a b => a.1 < b.1

theorem mem_bump {entry : Labels × Nat} (h : entry ∈ t.bump labels) :
    entry.1 = labels ∨ entry ∈ t := by
  induction t with
  | nil => simp_all [bump]
  | cons first rest ih =>
    obtain ⟨l, m⟩ := first
    rw [bump] at h
    split_ifs at h with heq hlt
    · rcases List.mem_cons.mp h with rfl | h
      · exact .inl heq.symm
      · exact .inr (List.mem_cons_of_mem _ h)
    · rcases List.mem_cons.mp h with rfl | h
      · exact .inl rfl
      · exact .inr h
    · rcases List.mem_cons.mp h with rfl | h
      · exact .inr (List.mem_cons_self ..)
      · exact (ih h).imp id (List.mem_cons_of_mem _)

theorem Increasing.bump (ht : t.Increasing) (labels : Labels) : (t.bump labels).Increasing := by
  induction t with
  | nil => exact List.pairwise_singleton ..
  | cons first rest ih =>
    obtain ⟨l, m⟩ := first
    obtain ⟨hl, hrest⟩ := List.pairwise_cons.mp ht
    rw [Tally.bump]
    split_ifs with heq hlt
    · exact List.pairwise_cons.mpr ⟨hl, hrest⟩
    · refine List.pairwise_cons.mpr ⟨fun entry hmem => ?_, ht⟩
      rcases List.mem_cons.mp hmem with rfl | hmem
      · exact hlt
      · exact hlt.trans (hl entry hmem)
    · refine List.pairwise_cons.mpr ⟨fun entry hmem => ?_, ih hrest⟩
      rcases mem_bump hmem with h | hmem
      · rw [h]
        exact lt_of_le_of_ne (le_of_not_gt hlt) (Ne.symm heq)
      · exact hl entry hmem

theorem count_eq_zero (h : ∀ entry ∈ t, labels < entry.1) : t.count labels = 0 := by
  induction t with
  | nil => rfl
  | cons first rest ih =>
    rw [count, if_neg (h first (List.mem_cons_self ..)).ne]
    exact ih fun entry hmem => h entry (List.mem_cons_of_mem _ hmem)

theorem Increasing.count_of_mem (ht : t.Increasing) (h : (labels, n) ∈ t) : t.count labels = n := by
  induction t with
  | nil => cases h
  | cons first rest ih =>
    obtain ⟨hfirst, hrest⟩ := List.pairwise_cons.mp ht
    rcases List.mem_cons.mp h with rfl | h
    · exact if_pos rfl
    · rw [count, if_neg (hfirst _ h).ne']
      exact ih hrest h

theorem Increasing.count_bump (ht : t.Increasing) (labels other : Labels) :
    (t.bump labels).count other = t.count other + if other = labels then 1 else 0 := by
  induction t with
  | nil => simp [Tally.bump, count]
  | cons first rest ih =>
    obtain ⟨l, m⟩ := first
    obtain ⟨hl, hrest⟩ := List.pairwise_cons.mp ht
    by_cases heq : labels = l
    · subst heq
      rw [Tally.bump, if_pos rfl, count, count]
      split_ifs <;> rfl
    · by_cases hlt : labels < l
      · rw [Tally.bump, if_neg heq, if_pos hlt]
        by_cases hother : other = labels
        · have hbelow : Tally.count labels ((l, m) :: rest) = 0 := by
            refine count_eq_zero fun entry hmem => ?_
            rcases List.mem_cons.mp hmem with rfl | hmem
            · exact hlt
            · exact hlt.trans (hl entry hmem)
          rw [hother, hbelow, count, if_pos rfl, if_pos rfl]
        · rw [count, if_neg hother, if_neg hother, Nat.add_zero]
      · rw [Tally.bump, if_neg heq, if_neg hlt, count, count, ih hrest]
        by_cases hother : other = l
        · rw [if_pos hother, if_pos hother, if_neg (hother ▸ Ne.symm heq), Nat.add_zero]
        · rw [if_neg hother, if_neg hother]

theorem total_bump (t : Tally) (labels : Labels) : (t.bump labels).total = t.total + 1 := by
  induction t with
  | nil => rfl
  | cons first rest ih =>
    obtain ⟨l, m⟩ := first
    rw [bump]
    split_ifs with heq hlt
    · simp only [total]
      omega
    · simp only [total]
      omega
    · simp only [total, ih]
      omega

/-- The tally holds what has been seen, each time it has been seen. The order does not matter. -/
structure Counts (t : Tally) (seen : List Labels) : Prop where
  increasing : t.Increasing
  count_eq : ∀ labels, t.count labels = seen.count labels
  total_eq : t.total = seen.length
  mem_seen : ∀ entry ∈ t, entry.1 ∈ seen

theorem counts_nil : Counts [] [] where
  increasing := List.Pairwise.nil
  count_eq := fun _ => rfl
  total_eq := rfl
  mem_seen := by simp

theorem Counts.bump (h : t.Counts seen) (labels : Labels) :
    (t.bump labels).Counts (labels :: seen) where
  increasing := h.increasing.bump labels
  count_eq := by
    intro other
    rw [h.increasing.count_bump, h.count_eq, List.count_cons]
    by_cases hother : labels = other
    · simp [hother]
    · simp [hother, Ne.symm hother]
  total_eq := by rw [total_bump, h.total_eq, List.length_cons]
  mem_seen := by
    intro entry hmem
    rcases mem_bump hmem with heq | hmem
    · exact heq ▸ List.mem_cons_self ..
    · exact List.mem_cons_of_mem _ (h.mem_seen entry hmem)

theorem Counts.perm (h : t.Counts seen) (hperm : seen.Perm seen') : t.Counts seen' where
  increasing := h.increasing
  count_eq := fun labels => (h.count_eq labels).trans (hperm.count_eq labels)
  total_eq := h.total_eq.trans hperm.length_eq
  mem_seen := fun entry hmem => hperm.subset (h.mem_seen entry hmem)

end Tally

/-! ## Labels of a call -/

namespace Counters

variable {limits : ToolLimits} {r : ToolRequest} {tool : String}

theorem toolLabel_mem (tool : String) :
    toolLabel tool ∈ Tool.names ∨ toolLabel tool = "unknown" := by
  rw [toolLabel]
  split_ifs with h
  · exact .inl (List.contains_iff_mem.mp h)
  · exact .inr rfl

theorem toolLabel_eq_unknown_iff :
    toolLabel tool = "unknown" ↔ tool ∉ Tool.names := by
  rw [toolLabel]
  split_ifs with h
  · -- No tool has the name that stands for all others.
    have hmem := List.contains_iff_mem.mp h
    have hunknown : "unknown" ∉ Tool.names := by decide
    exact iff_of_false (fun heq => hunknown (heq ▸ hmem)) (not_not_intro hmem)
  · exact iff_of_true rfl fun hmem => h (List.contains_iff_mem.mpr hmem)

theorem outcomeLabel_mem (limits : ToolLimits) (r : ToolRequest) :
    outcomeLabel (r.handle limits) ∈ "ok" :: ToolError.kinds := by
  rcases ToolRequest.handle_cases limits r with ⟨e, _, h⟩ | ⟨t, a, _, _, h⟩
  · have hrefusal := ToolResponse.isRefusal_of_error e
    rw [h, outcomeLabel, if_neg hrefusal.error_ne]
    exact List.mem_cons_of_mem _ hrefusal.kind_mem
  · rw [h, outcomeLabel, if_pos (ToolResponse.isSuccess_of_answer a).error_eq]
    exact List.mem_cons_self ..

theorem outcomeLabel_eq_unknown_iff :
    outcomeLabel (r.handle limits) = "unknown_tool" ↔ r.tool ∉ Tool.names := by
  rw [← @ToolRequest.handle_kind_unknown_iff limits r]
  rcases ToolRequest.handle_cases limits r with ⟨e, _, h⟩ | ⟨t, a, _, _, h⟩
  · rw [h, outcomeLabel, if_neg (ToolResponse.isRefusal_of_error e).error_ne]
  · have hsuccess := ToolResponse.isSuccess_of_answer a
    rw [h, outcomeLabel, if_pos hsuccess.error_eq, hsuccess.kind_eq]
    decide

end Counters

open Counters (toolLabel outcomeLabel)

def callLabels (limits : ToolLimits) (r : ToolRequest) : Labels :=
  [outcomeLabel (r.handle limits), toolLabel r.tool]

/-- One of the pairs of an outcome and a tool that calls are counted under. There are finitely
many, whatever tools the callers name. -/
def IsCallLabels (labels : Labels) : Prop :=
  ∃ tool kind, labels = [kind, tool] ∧
    (tool ∈ Tool.names ∨ tool = "unknown") ∧
    kind ∈ "ok" :: ToolError.kinds ∧ (tool = "unknown" ↔ kind = "unknown_tool")

theorem isCallLabels_callLabels (limits : ToolLimits) (r : ToolRequest) :
    IsCallLabels (callLabels limits r) := by
  refine ⟨toolLabel r.tool, outcomeLabel (r.handle limits), rfl, Counters.toolLabel_mem _,
    Counters.outcomeLabel_mem _ _, ?_⟩
  rw [Counters.toolLabel_eq_unknown_iff, Counters.outcomeLabel_eq_unknown_iff]

theorem count_callLabels (limits : ToolLimits) (calls : List ToolRequest) (tool kind : String) :
    (calls.map (callLabels limits)).count [kind, tool] =
      calls.countP fun r => toolLabel r.tool = tool ∧ outcomeLabel (r.handle limits) = kind := by
  rw [List.count, List.countP_map]
  refine List.countP_congr fun r _ => ?_
  simp [callLabels, and_comm]

/-! ## Services that count -/

/-- The service has this configuration and has counted these calls. -/
structure State.Tallied (s : State) (config : Config) (seen : List Labels) : Prop where
  config_eq : s.config = config
  counts : ∃ c, s.counters = some c ∧ c.calls.Counts seen

namespace State.Tallied

variable {s : State} {config : Config} {seen seen' : List Labels}

theorem perm (h : s.Tallied config seen) (hperm : seen.Perm seen') : s.Tallied config seen' := by
  obtain ⟨c, hc, hcounts⟩ := h.counts
  exact ⟨h.config_eq, c, hc, hcounts.perm hperm⟩

theorem keep {f : Counters → Counters} (hf : ∀ c, (f c).calls = c.calls)
    (h : s.Tallied config seen) :
    State.Tallied { s with counters := s.counters.map f } config seen := by
  obtain ⟨c, hc, hcounts⟩ := h.counts
  refine ⟨h.config_eq, f c, by simp [hc], ?_⟩
  rw [hf]
  exact hcounts

theorem call (h : s.Tallied config seen) (r : ToolRequest) :
    (s.call r).state.Tallied config (callLabels config.toolLimits r :: seen) := by
  obtain ⟨c, hc, hcounts⟩ := h.counts
  refine ⟨h.config_eq, c.observeCall r.tool (r.handle config.toolLimits), ?_, hcounts.bump _⟩
  simp [State.call, hc, h.config_eq]

theorem callAll (h : s.Tallied config seen) (calls : List ToolRequest) :
    (s.callAll calls).state.Tallied config (calls.map (callLabels config.toolLimits) ++ seen) := by
  induction calls generalizing s seen with
  | nil => exact h
  | cons r rest ih => exact (ih (h.call r)).perm List.perm_middle

end State.Tallied

/-! ## Calls of a batch in any order -/

def Stage.isWorked : Stage → Bool
  | .answered _ | .stored => true
  | _ => false

def worked : List ToolRequest → List Stage → List ToolRequest
  | r :: calls, stage :: stages => if stage.isWorked then r :: worked calls stages else worked calls stages
  | _, _ => []

section
variable {calls : List ToolRequest} {stages : List Stage} {i : Nat} {old new : Stage}

theorem worked_waiting (calls : List ToolRequest) :
    worked calls (calls.map fun _ => .waiting) = [] := by
  induction calls with
  | nil => rfl
  | cons r calls ih =>
    rw [List.map_cons, worked, ih]
    rfl

theorem worked_stored (hlength : stages.length = calls.length)
    (h : ∀ stage ∈ stages, stage = .stored) : worked calls stages = calls := by
  induction calls generalizing stages with
  | nil => simp [worked]
  | cons r calls ih =>
    cases stages with
    | nil => cases hlength
    | cons stage stages =>
      obtain ⟨rfl, hrest⟩ := List.forall_mem_cons.mp h
      simp [worked, Stage.isWorked, ih (Nat.succ.inj hlength) hrest]

theorem worked_set (h : stages[i]? = some old) (hsame : new.isWorked = old.isWorked) :
    worked calls (stages.set i new) = worked calls stages := by
  induction stages generalizing i calls with
  | nil => cases h
  | cons stage stages ih =>
    cases calls with
    | nil => cases i <;> rfl
    | cons r calls =>
      cases i with
      | zero =>
        obtain rfl : stage = old := by simpa using h
        simp [worked, hsame]
      | succ i => simp [worked, ih (by simpa using h)]

theorem worked_set_perm {r : ToolRequest} (h : stages[i]? = some old) (hcall : calls[i]? = some r)
    (hold : old.isWorked = false) (hnew : new.isWorked = true) :
    (worked calls (stages.set i new)).Perm (r :: worked calls stages) := by
  induction stages generalizing i calls with
  | nil => cases h
  | cons stage stages ih =>
    cases calls with
    | nil => cases hcall
    | cons first calls =>
      cases i with
      | zero =>
        obtain rfl : stage = old := by simpa using h
        obtain rfl : first = r := by simpa using hcall
        simp [worked, hold, hnew]
      | succ i =>
        have hrest := ih (by simpa using h) (by simpa using hcall)
        simp only [List.set_cons_succ, worked]
        split_ifs
        · exact (hrest.cons first).trans (.swap ..)
        · exact hrest

end

namespace Batch

/-- The invariant of the counters of a batch: they have counted the calls that have been
worked on, and what had been counted before. -/
structure Accounted (config : Config) (calls : List ToolRequest) (seen : List Labels) (b : Batch) :
    Prop where
  calls_eq : b.calls = calls
  stages_length : b.stages.length = calls.length
  cause_of_refused : Stage.refused ∈ b.stages → b.cause ≠ none
  tallied : b.service.Tallied config
    ((worked calls b.stages).map (callLabels config.toolLimits) ++ seen)

section
variable {config : Config} {calls : List ToolRequest} {seen : List Labels} {b b' : Batch}

theorem accounted_start {s : State} (h : s.Tallied config seen) (calls : List ToolRequest) :
    (start s calls).Accounted config calls seen where
  calls_eq := rfl
  stages_length := List.length_map _
  cause_of_refused := by simp [start]
  tallied := by
    rw [start, worked_waiting]
    exact h

theorem Accounted.enter {i : Nat} {old new : Stage} (hb : b.Accounted config calls seen)
    (h : b.stages[i]? = some old) (hcalls : b'.calls = b.calls)
    (hstages : b'.stages = b.stages.set i new) (hcause : b'.cause = b.cause)
    (hservice : b'.service = b.service) (hsame : new.isWorked = old.isWorked)
    (hrefused : new = .refused → b.cause ≠ none) : b'.Accounted config calls seen where
  calls_eq := hcalls.trans hb.calls_eq
  stages_length := by rw [hstages, List.length_set, hb.stages_length]
  cause_of_refused := by
    intro hmem
    rw [hcause]
    rw [hstages] at hmem
    rcases List.mem_or_eq_of_mem_set hmem with hmem | heq
    · exact hb.cause_of_refused hmem
    · exact hrefused heq.symm
  tallied := by
    rw [hservice, hstages, worked_set h hsame]
    exact hb.tallied

theorem Accounted.step (hb : b.Accounted config calls seen) (h : Step b b') :
    b'.Accounted config calls seen := by
  cases h with
  | start h _ => exact hb.enter h rfl rfl rfl rfl rfl (by simp)
  | proceed h _ => exact hb.enter h rfl rfl rfl rfl rfl (by simp)
  | refuse h hcause => exact hb.enter h rfl rfl rfl rfl rfl (by simp [hcause])
  | store h => exact hb.enter h rfl rfl rfl rfl rfl (by simp)
  | giveUp h => exact { hb with cause_of_refused := by simp [Batch.giveUp] }
  | @call i r h hcall =>
    refine ⟨hb.calls_eq, List.length_set.trans hb.stages_length, fun hmem => ?_, ?_⟩
    · rcases List.mem_or_eq_of_mem_set hmem with hmem | heq
      · exact hb.cause_of_refused hmem
      · cases heq
    · -- This is the one step that counts, and it counts the call that it works on.
      have hworked := @worked_set_perm calls b.stages i _ (.answered (b.service.call r).result) r h
        (hb.calls_eq ▸ hcall) rfl rfl
      exact (hb.tallied.call r).perm ((hworked.map _).append_right seen).symm

theorem Accounted.reaches (hb : b.Accounted config calls seen) (h : Reaches b b') :
    b'.Accounted config calls seen := by
  induction h with
  | refl => exact hb
  | tail _ hstep ih => exact ih.step hstep

theorem Accounted.tallied_settled (hb : b.Accounted config calls seen) (hsettled : b.Settled)
    (hstands : b.cause = none) :
    b.service.Tallied config (calls.map (callLabels config.toolLimits) ++ seen) := by
  have hstored : ∀ stage ∈ b.stages, stage = .stored := by
    intro stage hmem
    have hover := hsettled stage hmem
    cases stage with
    | stored => rfl
    | refused => exact absurd hstands (hb.cause_of_refused hmem)
    | _ => cases hover
  have htallied := hb.tallied
  rw [worked_stored hb.stages_length hstored] at htallied
  exact htallied

end

end Batch

/-! ## Runs of requests -/

/-- The calls of a body: the one of a tool request, and those of a batch that is not too large.
A body that is not accepted has none. -/
def State.accepted (s : State) (body : String) : Route → List ToolRequest
  | .tool => (readTool s.bodyLimit body).toOption.toList
  | .batch =>
    match readBatch s.bodyLimit body with
    | .ok calls => if s.config.limits.maxBatch < calls.length then [] else calls
    | .error _ => []
  | _ => []

def State.executed (s : State) (r : Request) : List ToolRequest :=
  match s.route r.effectiveMethod (rawPath r.target) with
  | .found route => s.accepted r.body route
  | _ => []

/-- The service after a request that was not given up. The calls of a batch may have been
worked on under any schedule. -/
inductive State.Serves (s : State) (r : Request) : State → Prop
  | handled (now : Moment) : Serves s r (s.handle now r).state
  | scheduled {calls : List ToolRequest} {first b : Batch}
      (hroute : s.route r.effectiveMethod (rawPath r.target) = .found .batch)
      (hread : readBatch s.bodyLimit r.body = .ok calls) (hfirst : s.acceptBatch calls = .ok first)
      (hreaches : first.Reaches b) (hsettled : b.Settled) (hstands : b.cause = none) :
      Serves s r { b.service with
        counters := b.service.counters.map (·.observeRequest "/batch" b.answer.result.status) }

inductive State.Runs : State → List Request → State → Prop
  | done (s : State) : Runs s [] s
  | next {s s' s'' : State} {r : Request} {rest : List Request} (hserves : s.Serves r s')
      (hrest : Runs s' rest s'') : Runs s (r :: rest) s''

theorem runs_handleAll (s : State) (now : Moment) (requests : List Request) :
    s.Runs requests (s.handleAll now requests).state := by
  induction requests generalizing s with
  | nil => exact .done s
  | cons r rest ih => exact .next (.handled now) (ih _)

section
variable {s s' : State} {config : Config} {seen : List Labels} {r : Request}

theorem executed_congr (hconfig : s'.config = s.config)
    (hcounters : s'.counters.isSome = s.counters.isSome) : s'.executed = s.executed := by
  funext r
  simp only [State.executed, State.accepted, State.route, State.routes, State.bodyLimit, hconfig,
    hcounters]

theorem State.Tallied.answerTool (h : s.Tallied config seen) (body : String) :
    (s.answerTool body).state.Tallied config
      ((s.accepted body .tool).map (callLabels config.toolLimits) ++ seen) := by
  rw [State.answerTool, State.accepted]
  cases readTool s.bodyLimit body with
  | error e => exact h
  | ok call => exact h.call call

theorem State.Tallied.answerBatch (h : s.Tallied config seen) (body : String) :
    (s.answerBatch body false).state.Tallied config
      ((s.accepted body .batch).map (callLabels config.toolLimits) ++ seen) := by
  rw [State.accepted]
  cases hread : readBatch s.bodyLimit body with
  | error e =>
    rw [State.answerBatch, hread]
    exact h
  | ok calls =>
    by_cases hsize : s.config.limits.maxBatch < calls.length
    · simp only [State.answerBatch, hread, if_pos hsize]
      exact h
    · have hcounted : (s.countBatch calls.length).Tallied config seen := h.keep fun _ => rfl
      rw [answerBatch_stands hread (Int.not_lt.mp hsize)]
      simp only [if_neg hsize]
      exact hcounted.callAll calls

theorem State.Tallied.answer (h : s.Tallied config seen) (hstands : r.cancelled = false)
    (now : Moment) (route : Route) :
    (s.answer now route r).state.Tallied config
      ((s.accepted r.body route).map (callLabels config.toolLimits) ++ seen) := by
  cases route with
  | tool => exact h.answerTool r.body
  | batch =>
    rw [State.answer, hstands]
    exact h.answerBatch r.body
  | schema => exact h
  | health => exact h
  | metrics => exact h

theorem State.Tallied.handle (h : s.Tallied config seen) (hstands : r.cancelled = false)
    (now : Moment) :
    (s.handle now r).state.Tallied config
      ((s.executed r).map (callLabels config.toolLimits) ++ seen) := by
  cases hroute : s.route r.effectiveMethod (rawPath r.target) with
  | notFound =>
    simp only [State.handle, State.executed, hroute]
    exact h.keep fun _ => rfl
  | otherMethod allow =>
    simp only [State.handle, State.executed, hroute]
    exact h.keep fun _ => rfl
  | found route =>
    rw [handle_of_route hroute]
    simp only [State.executed, hroute]
    exact (h.answer hstands now route).keep fun _ => rfl

theorem State.Tallied.serves (h : s.Tallied config seen) (hstands : r.cancelled = false)
    (hserves : s.Serves r s') :
    s'.Tallied config ((s.executed r).map (callLabels config.toolLimits) ++ seen) := by
  cases hserves with
  | handled now => exact h.handle hstands now
  | @scheduled calls first b hroute hread hfirst hreaches hsettled hcause =>
    refine State.Tallied.keep (fun _ => rfl) ?_
    unfold State.acceptBatch at hfirst
    split_ifs at hfirst with hsize
    cases hfirst
    have hstart : (s.countBatch calls.length).Tallied config seen := h.keep fun _ => rfl
    have hb := (Batch.accounted_start hstart calls).reaches hreaches
    simp only [State.executed, State.accepted, hroute, hread, if_neg hsize]
    exact hb.tallied_settled hsettled hcause

theorem State.Tallied.runs {requests : List Request} (h : s.Tallied config seen)
    (hstand : ∀ r ∈ requests, r.cancelled = false) (hruns : s.Runs requests s') :
    s'.Tallied config
      ((requests.flatMap s.executed).map (callLabels config.toolLimits) ++ seen) := by
  induction hruns generalizing seen with
  | done s => exact h
  | @next s next s' r rest hserves _ ih =>
    obtain ⟨hfirst, hrest⟩ := List.forall_mem_cons.mp hstand
    have hnext := h.serves hfirst hserves
    have hexecuted : next.executed = s.executed := by
      obtain ⟨c, hc, _⟩ := h.counts
      obtain ⟨c', hc', _⟩ := hnext.counts
      exact executed_congr (hnext.config_eq.trans h.config_eq.symm) (by rw [hc, hc']; rfl)
    have hlast := ih hnext hrest
    rw [hexecuted] at hlast
    rw [List.flatMap_cons, List.map_append, List.append_assoc]
    exact hlast.perm (List.perm_append_comm_assoc ..)

end

/-- A service that counts from the start and takes requests none of which is given up, under
any schedule of its batches, has in all counted each call that it executed. Every pair of
labels counts the calls with that tool and outcome, and the pairs with a series are among
the fixed ones. -/
theorem call_counters_exact (s : State) (scope : String) (hstart : s.counters = some (.start scope))
    (requests : List Request) (hstand : ∀ r ∈ requests, r.cancelled = false) :
    (∀ now, s.Runs requests (s.handleAll now requests).state) ∧
    ∀ s', s.Runs requests s' →
      ∃ c, s'.counters = some c ∧
        c.calls.total = (requests.flatMap s.executed).length ∧
        (∀ tool kind, c.calls.count [kind, tool] =
          (requests.flatMap s.executed).countP fun call =>
            toolLabel call.tool = tool ∧
              outcomeLabel (call.handle s.config.toolLimits) = kind) ∧
        ∀ labels n, (labels, n) ∈ c.calls → c.calls.count labels = n ∧ IsCallLabels labels := by
  refine ⟨fun now => runs_handleAll s now requests, fun s' hruns => ?_⟩
  have hnone : s.Tallied s.config [] := ⟨rfl, _, hstart, Tally.counts_nil⟩
  obtain ⟨c, hc, hcounts⟩ := (hnone.runs hstand hruns).counts
  rw [List.append_nil] at hcounts
  refine ⟨c, hc, ?_, fun tool kind => ?_, fun labels n hmem => ⟨?_, ?_⟩⟩
  · rw [hcounts.total_eq, List.length_map]
  · rw [hcounts.count_eq, count_callLabels]
  · exact hcounts.increasing.count_of_mem hmem
  · obtain ⟨call, _, rfl⟩ := List.mem_map.mp (hcounts.mem_seen _ hmem)
    exact isCallLabels_callLabels _ call

/-- Two unknown tools, one of them in a batch, share a series. A body that is not read and a
batch of three calls where two are allowed are not counted. -/
theorem call_counters_exact_unknown :
    let s : State := ⟨{ Config.default with limits := { Config.default.limits with
      maxBatch := 2 } }, some (.start "symdiff")⟩
    let now : Moment := ⟨"", "id"⟩
    let post (target body : String) : Request := ⟨"POST", target, [], body, false⟩
    let requests : List Request :=
      [post "/tool" "\x7b\"tool\":\"mcp_spec\"\x7d", post "/tool?x" "\x7b\"tool\":\"integrate\"\x7d",
        post "/tool" "\x7b\x7d",
        post "/batch" "\x7b\"calls\":[\x7b\"tool\":\"Diff\"\x7d,\x7b\"tool\":\"simplify\"\x7d]\x7d",
        post "/batch" "\x7b\"calls\":[\x7b\"tool\":\"a\"\x7d,\x7b\"tool\":\"b\"\x7d,\x7b\"tool\":\"c\"\x7d]\x7d",
        ⟨"GET", "/metrics", [], "", false⟩]
    s.counters = some (.start "symdiff") ∧ (∀ r ∈ requests, r.cancelled = false) ∧
      ∃ c, (s.handleAll now requests).state.counters = some c ∧ c.calls.total = 4 ∧
        c.calls.count ["unknown_tool", "unknown"] = 2 ∧ c.calls.count ["ok", "mcp_spec"] = 1 ∧
        c.calls.count ["bad_request", "simplify"] = 1 ∧
        ∀ labels n, (labels, n) ∈ c.calls → IsCallLabels labels := by
  intro s now post requests
  have hstand : ∀ r ∈ requests, r.cancelled = false := by simp [requests, post]
  obtain ⟨hruns, hexact⟩ := call_counters_exact s "symdiff" rfl requests hstand
  obtain ⟨c, hc, htotal, hcount, hlabels⟩ := hexact _ (hruns now)
  refine ⟨rfl, hstand, c, hc, ?_, ?_, ?_, ?_, fun labels n hmem => (hlabels labels n hmem).2⟩
  · rw [htotal]
    decide +kernel
  · rw [hcount]
    decide +kernel
  · rw [hcount]
    decide +kernel
  · rw [hcount]
    decide +kernel

end SymbolicCalculus.Service
