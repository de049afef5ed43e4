import SymbolicCalculus.Proofs.CallCounters
import SymbolicCalculus.Proofs.DepthLimit
import SymbolicCalculus.Proofs.Settings

/-!
# Limits that are configured and limits that hold

A service works under the configuration it was started with. Its calls take trees up to the
configured depth and no deeper, and orders from zero up to the configured one and no higher,
and its batches have from one call up to the configured number. What is refused for another
reason is not said to be too deep.
-/

set_option autoImplicit false

namespace SymbolicCalculus
open Decimal (Binary64)
open ObjectForm (Nests)

namespace ToolRequest

variable {limits : ToolLimits} {r : ToolRequest} {t : Tool}

/-! ## Trees -/

theorem exists_tree_of_run {a : ToolAnswer} (ht : Tool.ofName? r.tool = some t)
    (h : r.run limits = .ok a) {key : String} (hkey : key ∈ t.treeParams) :
    ∃ e, r.tree limits key = .ok e := by
  unfold run at h
  rw [ht] at h
  cases t with
  | schema => cases hkey
  | substitute =>
    obtain ⟨e, he, h⟩ := bind_eq_ok.mp h
    obtain ⟨v, _, h⟩ := bind_eq_ok.mp h
    obtain ⟨w, hw, _⟩ := bind_eq_ok.mp h
    rcases List.mem_pair.mp hkey with rfl | rfl
    · exact ⟨e, he⟩
    · exact ⟨w, hw⟩
  | _ =>
    obtain ⟨e, he, _⟩ := bind_eq_ok.mp h
    obtain rfl := List.mem_singleton.mp hkey
    exact ⟨e, he⟩

/-- Only a tree among the parameters is refused as one. -/
theorem exists_tree_of_read_error {err : ReadError} (h : r.run limits = .error (.read err)) :
    ∃ t key members, Tool.ofName? r.tool = some t ∧ key ∈ t.treeParams ∧
      Json.lookup key r.params = some (.obj members) ∧
      Expr.ofMembers limits.maxDepth members = .error err := by
  cases ht : Tool.ofName? r.tool with
  | none => simp [run, ht] at h
  | some t =>
    cases failsOnly_run limits ht _ h with
    | @tree key _ hkey htree =>
      rcases tree_eq_error htree with h | h | ⟨members, err', hmembers, herr, h⟩
      · cases h
      · cases h
      · cases h
        exact ⟨t, key, members, rfl, hkey, hmembers, herr⟩
    | text h => simpa using text_eq_error h
    | order h => simpa using integer_eq_error h
    | environment h => simpa using environment_eq_error h

/-- The depth of trees has exactly this limit. -/
structure EnforcesDepth (limit : ℤ) (limits : ToolLimits) (r : ToolRequest) : Prop where
  depth_le : ∀ key e, r.tree limits key = .ok e → (e.depth : ℤ) ≤ limit
  trees_read : ∀ t a, Tool.ofName? r.tool = some t → r.run limits = .ok a →
    ∀ key ∈ t.treeParams, ∃ e, r.tree limits key = .ok e
  tree_of_le : ∀ key members e other, Json.lookup key r.params = some (.obj members) →
    Expr.ofMembers other members = .ok e → (e.depth : ℤ) ≤ limit → r.tree limits key = .ok e
  tree_of_gt : ∀ key members e other, Json.lookup key r.params = some (.obj members) →
    Expr.ofMembers other members = .ok e → limit < e.depth →
      ∃ err : ShapeError, err.IsDepth ∧ r.tree limits key = .error (.read (.shape err))
  nests_of_depth : ∀ err : ShapeError, r.run limits = .error (.read (.shape err)) → err.IsDepth →
    ∃ t key members, Tool.ofName? r.tool = some t ∧ key ∈ t.treeParams ∧
      Json.lookup key r.params = some (.obj members) ∧ Nests members (limit.toNat + 1)

theorem enforcesDepth (limits : ToolLimits) (r : ToolRequest) :
    r.EnforcesDepth limits.maxDepth limits where
  depth_le := by
    intro key e h
    obtain ⟨members, _, he⟩ := tree_eq_ok.mp h
    exact Expr.depth_le_of_ofMembers he
  trees_read := fun t a ht h key hkey => exists_tree_of_run ht h hkey
  tree_of_le := by
    intro key members e other hmembers he hle
    exact tree_eq_ok.mpr ⟨members, hmembers, (Expr.ofMembers_of_ok he _).1 hle⟩
  tree_of_gt := by
    intro key members e other hmembers he hlt
    obtain ⟨err, herr, hdepth⟩ := (Expr.ofMembers_of_ok he _).2 hlt
    refine ⟨err, hdepth, ?_⟩
    rw [tree, hmembers]
    simp only [herr]
    rfl
  nests_of_depth := by
    intro err h hdepth
    obtain ⟨t, key, members, ht, hkey, hmembers, herr⟩ := exists_tree_of_read_error h
    exact ⟨t, key, members, ht, hkey, hmembers, Expr.nests_of_ofMembers herr hdepth⟩

/-! ## Orders -/

/-- The order that a request asks for: one if it gives none, and otherwise a number that is
an integer. -/
inductive AsksOrder (r : ToolRequest) : ℤ → Prop
  | absent (h : Json.lookup "n" r.params = none) : AsksOrder r 1
  | number {x : Float} {n : ℤ} (h : Json.lookup "n" r.params = some (.num x))
      (hx : (Binary64.ofFloat x).rational? = some (n : ℚ)) : AsksOrder r n

theorem integer_order_iff {n : ℤ} :
    r.integer "n" 1 0 limits.maxOrder = .ok n ↔ r.AsksOrder n ∧ 0 ≤ n ∧ n ≤ limits.maxOrder := by
  have hlimit : 1 ≤ limits.maxOrder := by
    unfold ToolLimits.maxOrder
    split_ifs with h
    · decide
    · omega
  constructor
  · intro h
    unfold integer at h
    split at h
    · next hnone =>
      cases h
      exact ⟨.absent hnone, by decide, hlimit⟩
    · next x hx =>
      split at h
      · cases h
      · next i hi =>
        split_ifs at h with hrange
        cases h
        rw [not_or, not_lt, not_lt] at hrange
        exact ⟨.number hx (Binary64.toInt?_eq_some_iff.mp hi), hrange⟩
    · cases h
  · rintro ⟨hasks, hrange⟩
    cases hasks with
    | absent hnone => simp [integer, hnone]
    | number hx hn =>
      have hout : ¬ (n < 0 ∨ limits.maxOrder < n) := by omega
      simp [integer, hx, Binary64.toInt?_eq_some_iff.mpr hn, hout]

theorem run_diffn (htool : r.tool = "diffn") :
    r.run limits = r.tree limits "expr" >>= fun e => r.text "var" >>= fun v =>
      r.integer "n" 1 0 limits.maxOrder >>= fun n =>
        (differentiateTimes v n e).mapError .engine >>= fun d => .ok (.tree d) := by
  have ht : Tool.ofName? r.tool = some .diffn := by rw [htool]; rfl
  rw [run, ht]

/-- Derivatives are taken of the orders up to exactly this limit. A request for another order
is bad, unless its tree was refused before. -/
structure EnforcesOrder (limit : ℤ) (limits : ToolLimits) (r : ToolRequest) : Prop where
  of_ok : ∀ a, r.run limits = .ok a → ∃ e v n d, r.tree limits "expr" = .ok e ∧
    r.text "var" = .ok v ∧ r.AsksOrder n ∧ 0 ≤ n ∧ n ≤ limit ∧
    differentiateTimes v n e = .ok d ∧ a = .tree d
  runs : ∀ e v n, r.tree limits "expr" = .ok e → r.text "var" = .ok v → r.AsksOrder n → 0 ≤ n →
    n ≤ limit → r.run limits = ((differentiateTimes v n e).mapError .engine).map .tree
  refuses : (¬ ∃ n, r.AsksOrder n ∧ 0 ≤ n ∧ n ≤ limit) →
    ∃ err, r.run limits = .error err ∧
      (r.tree limits "expr" = .error err ∨ err.kindName = "bad_request")

theorem enforcesOrder (limits : ToolLimits) (htool : r.tool = "diffn") :
    r.EnforcesOrder limits.maxOrder limits where
  of_ok := by
    intro a h
    rw [run_diffn htool] at h
    simp only [bind_eq_ok, mapError_eq_ok, Except.ok.injEq] at h
    obtain ⟨e, he, v, hv, n, hn, d, hd, rfl⟩ := h
    obtain ⟨hasks, hlow, hhigh⟩ := integer_order_iff.mp hn
    exact ⟨e, v, n, d, he, hv, hasks, hlow, hhigh, hd, rfl⟩
  runs := by
    intro e v n he hv hasks hlow hhigh
    rw [run_diffn htool, he, hv, integer_order_iff.mpr ⟨hasks, hlow, hhigh⟩]
    show (differentiateTimes v n e).mapError ToolError.engine >>=
      (fun d => .ok (ToolAnswer.tree d)) = _
    cases differentiateTimes v n e <;> rfl
  refuses := by
    intro hnone
    rw [run_diffn htool]
    cases he : r.tree limits "expr" with
    | error err => exact ⟨err, rfl, .inl rfl⟩
    | ok e =>
      cases hv : r.text "var" with
      | error err =>
        refine ⟨err, rfl, .inr ?_⟩
        rcases text_eq_error hv with rfl | rfl <;> rfl
      | ok v =>
        cases hn : r.integer "n" 1 0 limits.maxOrder with
        | error err =>
          refine ⟨err, rfl, .inr ?_⟩
          rcases integer_eq_error hn with rfl | rfl <;> rfl
        | ok n => exact absurd ⟨n, integer_order_iff.mp hn⟩ hnone

end ToolRequest

namespace Service

/-! ## Running services -/

section
variable {s s' : State}

theorem callAll_config (s : State) (calls : List ToolRequest) :
    (s.callAll calls).state.config = s.config := by
  induction calls generalizing s with
  | nil => rfl
  | cons r rest ih => exact ih _

theorem answer_config (s : State) (now : Moment) (route : Route) (r : Request) :
    (s.answer now route r).state.config = s.config := by
  cases route with
  | tool =>
    simp only [State.answer, State.answerTool]
    cases readTool s.bodyLimit r.body <;> rfl
  | batch =>
    simp only [State.answer, State.answerBatch]
    cases readBatch s.bodyLimit r.body with
    | error e => rfl
    | ok calls =>
      dsimp only
      split_ifs
      · rfl
      · rfl
      · exact callAll_config _ calls
  | schema => rfl
  | health => rfl
  | metrics => rfl

theorem handle_config (s : State) (now : Moment) (r : Request) :
    (s.handle now r).state.config = s.config := by
  cases hroute : s.route r.effectiveMethod (rawPath r.target) with
  | notFound => simp only [State.handle, hroute]
  | otherMethod allow => simp only [State.handle, hroute]
  | found route =>
    rw [handle_of_route hroute]
    exact answer_config s now route r

theorem Batch.Reaches.config_eq {b b' : Batch} (h : b.Reaches b') :
    b'.service.config = b.service.config := by
  induction h with
  | refl => rfl
  | tail _ hstep ih =>
    rw [← ih]
    cases hstep <;> rfl

theorem State.Runs.config_eq {requests : List Request} (h : s.Runs requests s') :
    s'.config = s.config := by
  induction h with
  | done s => rfl
  | @next s next s' r rest hserves _ ih =>
    rw [ih]
    cases hserves with
    | handled now => exact handle_config s now r
    | @scheduled calls first b _ _ hfirst hreaches _ _ =>
      unfold State.acceptBatch at hfirst
      split_ifs at hfirst
      cases hfirst
      exact Batch.Reaches.config_eq hreaches

/-- A body has from one call up to the limit executed, or it is refused and nothing is done. -/
theorem accepted_batch_cases (s : State) (body : String) :
    (∃ calls, readBatch s.bodyLimit body = .ok calls ∧ s.accepted body .batch = calls ∧
      1 ≤ calls.length ∧ (calls.length : ℤ) ≤ s.config.limits.maxBatch) ∨
    (s.accepted body .batch = [] ∧ ∃ status message, ∀ cancelled,
      s.answerBatch body cancelled = ⟨s, [], .refusal status message⟩) := by
  unfold State.accepted State.answerBatch
  cases hread : readBatch s.bodyLimit body with
  | error e => exact .inr ⟨rfl, e.status, e.message, fun _ => rfl⟩
  | ok calls =>
    dsimp only
    split_ifs with hsize
    · exact .inr ⟨rfl, _, _, fun _ => rfl⟩
    · exact .inl ⟨calls, rfl, rfl, List.length_pos_iff.mpr (readBatch_ne_nil hread),
        Int.not_lt.mp hsize⟩

end

end Service

open Service (State Request)

/-- Let a reader of documents set the keys that a text gives and no others. Then an accepted
configuration is within its bounds, with the defaults for what its text does not give. A
service that was started with it, after any run of requests, executes its calls under the
configured limits for depth and order, which never stand for others, and executes batches
of up to the configured size only. -/
theorem limits_enforced {read : Config.Reader} {given : String → String → String → Option Setting}
    (hread : read.SetsGiven given) {text : String} {config : Config}
    (h : Config.parseWith read text = .ok config) :
    (config.Bounded ∧ ∀ area key,
      config.setting? area key = (given text area key).or (Config.default.setting? area key)) ∧
    (config.toolLimits.maxDepth = config.limits.maxDepth ∧
      config.toolLimits.maxOrder = config.limits.maxOrder) ∧
    ∀ (s s' : State) (requests : List Request), s.config = config → s.Runs requests s' →
      (∀ r : ToolRequest,
        (s'.call r).result = .ofOutcome (r.run config.toolLimits) ∧
        r.EnforcesDepth config.limits.maxDepth config.toolLimits ∧
        (r.tool = "diffn" → r.EnforcesOrder config.limits.maxOrder config.toolLimits)) ∧
      ∀ body : String,
        (∃ calls, Service.readBatch s'.bodyLimit body = .ok calls ∧ s'.accepted body .batch = calls ∧
          1 ≤ calls.length ∧ (calls.length : ℤ) ≤ config.limits.maxBatch) ∨
        (s'.accepted body .batch = [] ∧ ∃ status message, ∀ cancelled,
          s'.answerBatch body cancelled = ⟨s', [], .refusal status message⟩) := by
  have haccepted := Config.parseWith_eq_ok hread h
  obtain ⟨hdepth, horder⟩ := haccepted.1.toolLimits
  refine ⟨haccepted, ⟨hdepth, horder⟩, fun s s' requests hs hruns => ?_⟩
  have hconfig : s'.config = config := hruns.config_eq.trans hs
  refine ⟨fun r => ⟨?_, ?_, fun htool => ?_⟩, fun body => ?_⟩
  · rw [← hconfig]
    rfl
  · rw [← hdepth]
    exact ToolRequest.enforcesDepth _ r
  · rw [← horder]
    exact ToolRequest.enforcesOrder _ htool
  · rw [← hconfig]
    exact Service.accepted_batch_cases s' body

/-- A document with small limits. Three levels are too deep where two are allowed, and two
are not. The order four is bad where three is allowed, and the order three is not. -/
theorem limits_enforced_small :
    let text := "limits:\n  max_depth: 2\n  max_order: 3\n  max_batch: 1\n"
    let config : Config := { Config.default with limits := ⟨1048576, 2, 3, 1, 8⟩ }
    let s : State := ⟨config, none⟩
    let x : ObjectForm.Members := [("name", .str "x"), ("type", .str "sym")]
    let minus (m : ObjectForm.Members) : ObjectForm.Members := [("expr", .obj m), ("type", .str "neg")]
    let request (m : ObjectForm.Members) (n : Float) : ToolRequest :=
      ⟨"diffn", [("expr", .obj m), ("var", .str "x"), ("n", .num n)]⟩
    let batch := "\x7b\"calls\":[\x7b\"tool\":\"a\"\x7d,\x7b\"tool\":\"b\"\x7d]\x7d"
    Config.yaml.SetsGiven Config.given? ∧ Config.parseWith Config.yaml text = .ok config ∧
      Config.given? text "limits" "max_depth" = some (.amount 2) ∧
      Config.given? text "limits" "batch_concurrency" = none ∧
      (request (minus x) 3).tree config.toolLimits "expr" = .ok (.neg (.sym "x")) ∧
      (∃ err : ShapeError, err.IsDepth ∧
        (request (minus (minus x)) 3).tree config.toolLimits "expr" = .error (.read (.shape err))) ∧
      (s.call (request (minus x) 3)).result.error = "" ∧
      (∃ err : ToolError, (s.call (request (minus x) 4)).result = .ofOutcome (.error err) ∧
        err.kindName = "bad_request") ∧
      s.accepted batch .batch = [] := by
  intro text config s x minus request batch
  have hparse : Config.parseWith Config.yaml text = .ok config := by decide +kernel
  obtain ⟨_, _, hservice⟩ := limits_enforced Config.yaml_setsGiven hparse
  obtain ⟨hcalls, hbatches⟩ := hservice s s [] rfl (.done s)
  have hflat (n : Float) :
      (request (minus x) n).tree config.toolLimits "expr" = .ok (.neg (.sym "x")) :=
    (hcalls (request (minus x) n)).2.1.tree_of_le "expr" (minus x) _ 512 rfl rfl (by decide)
  have hfour : ¬ ∃ n, (request (minus x) 4).AsksOrder n ∧ 0 ≤ n ∧ n ≤ config.limits.maxOrder := by
    rintro ⟨n, hasks, _, hle⟩
    cases hasks with
    | absent h => cases h
    | number h hn =>
      cases h
      have hvalue : (Binary64.ofFloat 4).toInt? = some 4 := by decide +kernel
      obtain rfl : (4 : ℤ) = n :=
        Option.some.inj (hvalue.symm.trans (Binary64.toInt?_eq_some_iff.mpr hn))
      exact absurd hle (by decide)
  refine ⟨Config.yaml_setsGiven, hparse, by decide +kernel, by decide +kernel, hflat 3, ?_,
    by decide +kernel, ?_, ?_⟩
  · exact (hcalls (request (minus (minus x)) 3)).2.1.tree_of_gt "expr" (minus (minus x))
      (.neg (.neg (.sym "x"))) 512 rfl rfl (by decide)
  · obtain ⟨hresult, _, horder⟩ := hcalls (request (minus x) 4)
    obtain ⟨err, herr, hkind⟩ := (horder rfl).refuses hfour
    rw [hflat 4] at hkind
    exact ⟨err, by rw [hresult, herr], hkind.resolve_left (by simp)⟩
  · rcases hbatches batch with ⟨calls, hread, _, _, hlength⟩ | ⟨hnone, _⟩
    · have hsize : (Service.readBatch s.bodyLimit batch).toOption.map List.length = some 2 := by
        decide +kernel
      rw [hread] at hsize
      have htwo : calls.length = 2 := Option.some.inj hsize
      rw [htwo] at hlength
      exact absurd hlength (by decide)
    · exact hnone

end SymbolicCalculus
