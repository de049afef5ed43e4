import Mathlib.Tactic.SplitIfs
import SymbolicCalculus.Proofs.BatchSchedule

/-!
# Settings of an accepted configuration

A reader of documents is expected to set the keys that a text gives and no others, and the
reader of the program does. A text that is accepted then leaves every setting that it does
not give at its default, and every setting is within its bounds. The limits under which
tools run are positive, so none of them stands for a default.
-/

set_option autoImplicit false

namespace SymbolicCalculus

/-! ## Settings by name -/

inductive Setting where
  | text (s : String)
  | amount (n : Int)
  | flag (b : Bool)
  deriving DecidableEq, Repr

def ServerSettings.setting? (c : ServerSettings) : String → Option Setting
  | "addr" => some (.text c.addr)
  | "read_timeout" => some (.amount c.readTimeout)
  | "write_timeout" => some (.amount c.writeTimeout)
  | "request_timeout" => some (.amount c.requestTimeout)
  | "shutdown_timeout" => some (.amount c.shutdownTimeout)
  | _ => none

def LimitSettings.setting? (c : LimitSettings) : String → Option Setting
  | "max_body_bytes" => some (.amount c.maxBodyBytes)
  | "max_depth" => some (.amount c.maxDepth)
  | "max_order" => some (.amount c.maxOrder)
  | "max_batch" => some (.amount c.maxBatch)
  | "batch_concurrency" => some (.amount c.batchConcurrency)
  | _ => none

def LogSettings.setting? (c : LogSettings) : String → Option Setting
  | "level" => some (.text c.level)
  | "format" => some (.text c.format)
  | _ => none

def MetricsSettings.setting? (c : MetricsSettings) : String → Option Setting
  | "enabled" => some (.flag c.enabled)
  | "namespace" => some (.text c.scope)
  | _ => none

namespace Config

def setting? (c : Config) : String → String → Option Setting
  | "server" => c.server.setting?
  | "limits" => c.limits.setting?
  | "log" => c.log.setting?
  | "metrics" => c.metrics.setting?
  | _ => fun _ => none

/-! ## Readers of documents -/

/-- A reader sets exactly the keys for which a text gives a value, each to that value, and a
text without a document gives none. -/
structure Reader.SetsGiven (read : Reader) (given : String → String → String → Option Setting) :
    Prop where
  setting_eq : ∀ text c c', read text c = .ok c' → ∀ area key,
    c'.setting? area key = (given text area key).or (c.setting? area key)
  given_eq : ∀ text c, read text c = .error .noDocument → ∀ area key, given text area key = none

/-! ## What entries give -/

def valueOf? {α : Type} (read : Yaml.Node → Option α) (n : Yaml.Node) : Option α :=
  if n.isNull then none else read n

theorem setTo_eq_some {α : Type} {read : Yaml.Node → Option α} {n : Yaml.Node} {old v : α}
    (h : setTo read n old = some v) : v = (valueOf? read n).getD old := by
  unfold setTo at h
  unfold valueOf?
  split_ifs at h ⊢
  · exact (Option.some.inj h).symm
  · rw [h]
    rfl

section
variable {α κ : Type} {set : α → String → Yaml.Node → Option α} {get : α → κ → Option Setting}
  {name : κ → String} {value : κ → Yaml.Node → Option Setting} {k : κ} {c c' : α}

/-- The value that a list of entries gives for a key. The last one counts. -/
def givenIn (name : κ → String) (value : κ → Yaml.Node → Option Setting) (k : κ) :
    List (String × Yaml.Node) → Option Setting
  | [] => none
  | (first, n) :: rest => (givenIn name value k rest).or (if name k = first then value k n else none)

def givenBy (name : κ → String) (value : κ → Yaml.Node → Option Setting) (k : κ) :
    Yaml.Node → Option Setting
  | .mapping entries => givenIn name value k entries
  | .scalar _ _ => none

/-- One entry sets the keys of its name, to the values that its node gives, and no others. -/
def SetsNamed (set : α → String → Yaml.Node → Option α) (get : α → κ → Option Setting)
    (name : κ → String) (value : κ → Yaml.Node → Option Setting) : Prop :=
  ∀ c first n c', set c first n = some c' → ∀ k,
    get c' k = (if name k = first then value k n else none).or (get c k)

theorem SetsNamed.setAll (hset : SetsNamed set get name value) {entries : List (String × Yaml.Node)}
    (h : setAll set c entries = some c') : get c' k = (givenIn name value k entries).or (get c k) := by
  induction entries generalizing c with
  | nil =>
    cases h
    rfl
  | cons entry rest ih =>
    obtain ⟨first, n⟩ := entry
    rw [Config.setAll] at h
    cases hnext : set c first n with
    | none =>
      rw [hnext] at h
      cases h
    | some next =>
      rw [hnext] at h
      rw [ih h, hset c first n next hnext, givenIn, Option.or_assoc]

theorem SetsNamed.setSection (hset : SetsNamed set get name value) {n : Yaml.Node}
    (h : setSection set n c = some c') : get c' k = (givenBy name value k n).or (get c k) := by
  cases n with
  | mapping entries => exact hset.setAll h
  | scalar quoted s =>
    unfold Config.setSection at h
    split_ifs at h
    cases h
    rfl

end

/-! ## Sections -/

end Config

def ServerSettings.given? (key : String) (n : Yaml.Node) : Option Setting :=
  match key with
  | "addr" => (Config.valueOf? Config.textOf? n).map .text
  | "read_timeout" | "write_timeout" | "request_timeout" | "shutdown_timeout" =>
    (Config.valueOf? Config.durationOf? n).map .amount
  | _ => none

def LimitSettings.given? (key : String) (n : Yaml.Node) : Option Setting :=
  match key with
  | "max_body_bytes" | "max_depth" | "max_order" | "max_batch" | "batch_concurrency" =>
    (Config.valueOf? Config.wordOf? n).map .amount
  | _ => none

def LogSettings.given? (key : String) (n : Yaml.Node) : Option Setting :=
  match key with
  | "level" | "format" => (Config.valueOf? Config.textOf? n).map .text
  | _ => none

def MetricsSettings.given? (key : String) (n : Yaml.Node) : Option Setting :=
  match key with
  | "enabled" => (Config.valueOf? Config.boolOf? n).map .flag
  | "namespace" => (Config.valueOf? Config.textOf? n).map .text
  | _ => none

namespace Config

section
variable {α β : Type} {get : α → String → Option Setting} {given : String → Yaml.Node → Option Setting}
  {c c' : α} {first : String} {n : Yaml.Node}

/-- An entry that updates one field sets the key of that field and leaves the others alone. -/
theorem setting_of_entry {read : Yaml.Node → Option β} {old : β} {update : β → α}
    {wrap : β → Setting} (h : (setTo read n old).map update = some c')
    (hnew : ∀ v, get (update v) first = some (wrap v)) (hold : get c first = some (wrap old))
    (hgiven : given first n = (valueOf? read n).map wrap)
    (hother : ∀ v key, key ≠ first → get (update v) key = get c key) (key : String) :
    get c' key = (if key = first then given key n else none).or (get c key) := by
  obtain ⟨v, hv, rfl⟩ := Option.map_eq_some_iff.mp h
  split_ifs with hkey
  · subst hkey
    rw [hnew, hold, hgiven, setTo_eq_some hv]
    cases valueOf? read n <;> rfl
  · rw [hother v key hkey, Option.none_or]

end

theorem setsNamed_server :
    SetsNamed setServer ServerSettings.setting? id ServerSettings.given? := by
  intro c first n c' h key
  unfold setServer at h
  split at h
  case h_6 => cases h
  all_goals
    refine setting_of_entry h (fun _ => rfl) rfl rfl (fun v key hkey => ?_) key
    unfold ServerSettings.setting?
    split <;> simp_all

theorem setsNamed_limits : SetsNamed setLimits LimitSettings.setting? id LimitSettings.given? := by
  intro c first n c' h key
  unfold setLimits at h
  split at h
  case h_6 => cases h
  all_goals
    refine setting_of_entry h (fun _ => rfl) rfl rfl (fun v key hkey => ?_) key
    unfold LimitSettings.setting?
    split <;> simp_all

theorem setsNamed_log : SetsNamed setLog LogSettings.setting? id LogSettings.given? := by
  intro c first n c' h key
  unfold setLog at h
  split at h
  case h_3 => cases h
  all_goals
    refine setting_of_entry h (fun _ => rfl) rfl rfl (fun v key hkey => ?_) key
    unfold LogSettings.setting?
    split <;> simp_all

theorem setsNamed_metrics :
    SetsNamed setMetrics MetricsSettings.setting? id MetricsSettings.given? := by
  intro c first n c' h key
  unfold setMetrics at h
  split at h
  case h_3 => cases h
  all_goals
    refine setting_of_entry h (fun _ => rfl) rfl rfl (fun v key hkey => ?_) key
    unfold MetricsSettings.setting?
    split <;> simp_all

def sectionGiven? (k : String × String) (n : Yaml.Node) : Option Setting :=
  match k.1 with
  | "server" => givenBy id ServerSettings.given? k.2 n
  | "limits" => givenBy id LimitSettings.given? k.2 n
  | "log" => givenBy id LogSettings.given? k.2 n
  | "metrics" => givenBy id MetricsSettings.given? k.2 n
  | _ => none

theorem setsNamed_top : SetsNamed setTop (fun c k => c.setting? k.1 k.2) Prod.fst sectionGiven? := by
  intro c first n c' h k
  obtain ⟨area, key⟩ := k
  show c'.setting? area key =
    (if area = first then sectionGiven? (area, key) n else none).or (c.setting? area key)
  unfold setTop at h
  split_ifs with harea
  · subst harea
    split at h
    · obtain ⟨v, hv, rfl⟩ := Option.map_eq_some_iff.mp h
      exact setsNamed_server.setSection (k := key) hv
    · obtain ⟨v, hv, rfl⟩ := Option.map_eq_some_iff.mp h
      exact setsNamed_limits.setSection (k := key) hv
    · obtain ⟨v, hv, rfl⟩ := Option.map_eq_some_iff.mp h
      exact setsNamed_log.setSection (k := key) hv
    · obtain ⟨v, hv, rfl⟩ := Option.map_eq_some_iff.mp h
      exact setsNamed_metrics.setSection (k := key) hv
    · cases h
  · split at h
    case h_5 => cases h
    all_goals
      obtain ⟨v, _, rfl⟩ := Option.map_eq_some_iff.mp h
      unfold setting?
      split <;> simp_all

def given? (text area key : String) : Option Setting :=
  match Yaml.parse text.toList with
  | .ok document => givenBy Prod.fst sectionGiven? (area, key) document
  | .error _ => none

theorem yaml_setsGiven : yaml.SetsGiven given? where
  setting_eq := by
    intro text c c' h area key
    obtain ⟨document, hdocument, h⟩ := bind_eq_ok.mp h
    rw [given?, hdocument]
    split at h
    · next hset =>
      cases h
      exact setsNamed_top.setSection (k := (area, key)) hset
    · cases h
  given_eq := by
    intro text c h area key
    rw [given?]
    cases hparse : Yaml.parse text.toList with
    | error e => rfl
    | ok document =>
      simp only [yaml, hparse, bind, Except.bind] at h
      split at h <;> cases h

/-! ## Bounds -/

structure Bounded (c : Config) : Prop where
  addr : c.server.addr ≠ "" ∧ HostPort.isValid c.server.addr = true
  readTimeout : 0 < c.server.readTimeout
  writeTimeout : 0 < c.server.writeTimeout
  requestTimeout : 0 < c.server.requestTimeout
  shutdownTimeout : 0 < c.server.shutdownTimeout
  maxBodyBytes : 1024 ≤ c.limits.maxBodyBytes
  maxDepth : 1 ≤ c.limits.maxDepth ∧ c.limits.maxDepth ≤ 100000
  maxOrder : 1 ≤ c.limits.maxOrder ∧ c.limits.maxOrder ≤ 64
  maxBatch : 1 ≤ c.limits.maxBatch ∧ c.limits.maxBatch ≤ 10000
  batchConcurrency : 1 ≤ c.limits.batchConcurrency ∧ c.limits.batchConcurrency ≤ 1024
  level : c.log.level ∈ ["debug", "info", "warn", "error"]
  format : c.log.format ∈ ["text", "json"]
  scope : c.metrics.enabled = true → c.metrics.scope ≠ ""

theorem violations_eq_nil_iff {c : Config} : c.violations = [] ↔ c.Bounded := by
  have hscope : (c.metrics.enabled = false ∨ c.metrics.scope ≠ "") ↔
      (c.metrics.enabled = true → c.metrics.scope ≠ "") := by
    cases c.metrics.enabled <;> simp
  simp only [violations, serverViolations, limitViolations, logViolations, metricsViolations,
    List.append_eq_nil_iff, check_eq_nil, between, List.forall_mem_cons, List.not_mem_nil,
    false_implies, implies_true, and_true, decide_eq_true_eq, List.contains_iff_mem,
    Bool.or_eq_true, Bool.not_eq_true', hscope]
  constructor
  · rintro ⟨⟨⟨⟨⟨⟨⟨haddr, hread⟩, hwrite⟩, hrequest⟩, hshutdown⟩,
      ⟨⟨⟨hbody, hdepth⟩, horder⟩, hbatch⟩, hconcurrency⟩, hlevel, hformat⟩, hscope⟩
    exact ⟨haddr, hread, hwrite, hrequest, hshutdown, hbody, hdepth, horder, hbatch, hconcurrency,
      hlevel, hformat, hscope⟩
  · rintro ⟨haddr, hread, hwrite, hrequest, hshutdown, hbody, hdepth, horder, hbatch, hconcurrency,
      hlevel, hformat, hscope⟩
    exact ⟨⟨⟨⟨⟨⟨⟨haddr, hread⟩, hwrite⟩, hrequest⟩, hshutdown⟩,
      ⟨⟨⟨hbody, hdepth⟩, horder⟩, hbatch⟩, hconcurrency⟩, hlevel, hformat⟩, hscope⟩

theorem validate_eq_ok {c c' : Config} : c.validate = .ok c' ↔ c' = c ∧ c.Bounded := by
  rw [validate, ← violations_eq_nil_iff]
  split
  · next h => simp [h, eq_comm]
  · next h => simp [h]

/-- A text that is accepted gives settings within the bounds: its own and else the defaults. -/
theorem parseWith_eq_ok {read : Reader} {given : String → String → String → Option Setting}
    (hread : read.SetsGiven given) {text : String} {c : Config} (h : parseWith read text = .ok c) :
    c.Bounded ∧
      ∀ area key, c.setting? area key = (given text area key).or (Config.default.setting? area key) := by
  obtain ⟨c', hdecode, hvalidate⟩ := bind_eq_ok.mp h
  obtain ⟨rfl, hbounded⟩ := validate_eq_ok.mp hvalidate
  refine ⟨hbounded, fun area key => ?_⟩
  unfold decode at hdecode
  split at hdecode
  · next hok =>
    cases hdecode
    exact hread.setting_eq text _ _ hok area key
  · next hnone =>
    cases hdecode
    rw [hread.given_eq text _ hnone area key, Option.none_or]
  · cases hdecode

/-- Where the bounds hold, no limit of the tools stands for a default. -/
theorem Bounded.toolLimits {c : Config} (h : c.Bounded) :
    c.toolLimits.maxDepth = c.limits.maxDepth ∧ c.toolLimits.maxOrder = c.limits.maxOrder := by
  have hdepth : ¬ c.limits.maxDepth ≤ 0 := by
    have := h.maxDepth.1
    omega
  have horder : ¬ c.limits.maxOrder ≤ 0 := by
    have := h.maxOrder.1
    omega
  exact ⟨if_neg hdepth, if_neg horder⟩

end Config

end SymbolicCalculus
