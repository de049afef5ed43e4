import SymbolicCalculus.Proofs.ExactIntegers
import SymbolicCalculus.Proofs.ObjectForm
import SymbolicCalculus.Proofs.Preservation
import SymbolicCalculus.Tool.Call

/-!
# Responses of tool calls

Every request has one response. It is a refusal, which has a message and one of seven kinds
and nothing else, or a success, which has neither. A tree that a response tells is valid,
is the one that its text shows and is read again from its object. A number that it tells
is finite.
-/

set_option autoImplicit false

namespace SymbolicCalculus

/-! ## Tools by name -/

namespace Tool

theorem ofName?_eq_some {name : String} {t : Tool} : ofName? name = some t ↔ t.name = name := by
  constructor
  · intro h
    unfold ofName? at h
    split at h <;> cases h <;> rfl
  · rintro rfl
    cases t <;> rfl

theorem eq_of_name_eq {t t' : Tool} (h : t.name = t'.name) : t = t' :=
  Option.some.inj ((ofName?_eq_some.mpr h).symm.trans (ofName?_eq_some.mpr rfl))

theorem names_eq : names = all.map Tool.name := rfl

theorem mem_names_iff {name : String} : name ∈ names ↔ ∃ t : Tool, t.name = name := by
  rw [names_eq, List.mem_map]
  constructor
  · rintro ⟨t, _, ht⟩
    exact ⟨t, ht⟩
  · rintro ⟨t, ht⟩
    exact ⟨t, by cases t <;> decide, ht⟩

theorem ofName?_eq_none {name : String} : ofName? name = none ↔ name ∉ names := by
  simp only [mem_names_iff, ← ofName?_eq_some, not_exists, Option.eq_none_iff_forall_ne_some]

end Tool

/-! ## Parameters -/

namespace ToolRequest

section
variable {limits : ToolLimits} {r : ToolRequest} {key : String}

theorem tree_eq_ok {e : Expr} :
    r.tree limits key = .ok e ↔
      ∃ members, Json.lookup key r.params = some (.obj members) ∧
        Expr.ofMembers limits.maxDepth members = .ok e := by
  unfold tree
  cases hv : Json.lookup key r.params with
  | none => simp
  | some v =>
    cases v with
    | obj members => simp [mapError_eq_ok]
    | _ => simp

theorem tree_wellFormed {e : Expr} (h : r.tree limits key = .ok e) : e.WellFormed := by
  obtain ⟨members, _, he⟩ := tree_eq_ok.mp h
  exact (Expr.ofMembers_eq_ok.mp he).2

end

end ToolRequest

/-! ## Answers -/

/-- The answers of each tool; every tree among them is well formed. -/
inductive Tool.Gives : Tool → ToolAnswer → Prop
  | tree {t : Tool} {e : Expr} (ht : t ∈ [.diff, .diffn, .simplify, .substitute])
      (he : e.WellFormed) : Gives t (.tree e)
  | valid {e : Expr} (he : e.WellFormed) : Gives .validate (.valid e)
  | symbols (names : List String) : Gives .freeSymbols (.symbols names)
  | number (x : Float) : Gives .eval (.number x)
  | schema : Gives .schema .schema

section
variable {v : String} {e d w : Expr}

theorem differentiate_wellFormed (he : e.WellFormed) (h : differentiate v e = .ok d) :
    d.WellFormed :=
  Expr.derive_wellFormed he (differentiate_eq_ok.mp h)

theorem simplify_wellFormed (he : e.WellFormed) (h : simplify e = .ok d) : d.WellFormed := by
  have hends := simplify_endsValid he
  rw [h] at hends
  exact validate_eq_ok_iff.mp hends

theorem differentiateTimes_wellFormed {n : Int} (he : e.WellFormed)
    (h : differentiateTimes v n e = .ok d) : d.WellFormed := by
  unfold differentiateTimes at h
  split_ifs at h with hn hmissing
  have hends := passes_endsValid v n.toNat he 0
  rw [h] at hends
  exact validate_eq_ok_iff.mp hends

theorem substitute_wellFormed (he : e.WellFormed) (hw : w.WellFormed)
    (h : substitute v w e = .ok d) : d.WellFormed := by
  rw [substitute_of_wellFormed v he hw] at h
  cases h
  exact Expr.subst_wellFormed he hw

end

namespace ToolRequest

variable {limits : ToolLimits} {r : ToolRequest}

theorem run_gives {t : Tool} {a : ToolAnswer} (ht : Tool.ofName? r.tool = some t)
    (h : r.run limits = .ok a) : t.Gives a := by
  unfold run at h
  rw [ht] at h
  cases t with
  | diff =>
    simp only [bind_eq_ok, mapError_eq_ok] at h
    obtain ⟨e, he, v, _, d, hd, h⟩ := h
    have hd := differentiate_wellFormed (tree_wellFormed he) hd
    split_ifs at h with hraw
    · cases h
      exact .tree (by decide) hd
    · obtain ⟨s, hs, h⟩ := bind_eq_ok.mp h
      cases h
      exact .tree (by decide) (simplify_wellFormed hd (mapError_eq_ok.mp hs))
  | diffn =>
    simp only [bind_eq_ok, mapError_eq_ok] at h
    obtain ⟨e, he, v, _, n, _, d, hd, h⟩ := h
    cases h
    exact .tree (by decide) (differentiateTimes_wellFormed (tree_wellFormed he) hd)
  | simplify =>
    simp only [bind_eq_ok, mapError_eq_ok] at h
    obtain ⟨e, he, s, hs, h⟩ := h
    cases h
    exact .tree (by decide) (simplify_wellFormed (tree_wellFormed he) hs)
  | validate =>
    obtain ⟨e, he, h⟩ := bind_eq_ok.mp h
    cases h
    exact .valid (tree_wellFormed he)
  | freeSymbols =>
    obtain ⟨e, he, h⟩ := bind_eq_ok.mp h
    cases h
    exact .symbols _
  | substitute =>
    simp only [bind_eq_ok, mapError_eq_ok] at h
    obtain ⟨e, he, v, _, w, hw, s, hs, h⟩ := h
    cases h
    exact .tree (by decide) (substitute_wellFormed (tree_wellFormed he) (tree_wellFormed hw) hs)
  | eval =>
    simp only [bind_eq_ok, mapError_eq_ok] at h
    obtain ⟨e, _, env, _, x, _, h⟩ := h
    cases h
    exact .number x
  | schema =>
    cases h
    exact .schema

end ToolRequest

/-! ## Refusals -/

theorem Fault.message_ne_empty (f : Fault) : f.message ≠ "" := by
  have htitle : f.kind.title ≠ "" := by cases f.kind <;> simp [Kind.title]
  simp only [message]
  split_ifs <;> simp [htitle]

theorem Error.message_ne_empty (e : Error) : e.message ≠ "" := by
  rw [message.eq_def]
  split
  · exact Fault.message_ne_empty _
  all_goals simp

theorem ShapeError.message_ne_empty (e : ShapeError) : e.message ≠ "" := by
  rw [message.eq_def]
  split <;> simp

theorem ReadError.message_ne_empty (e : ReadError) : e.message ≠ "" := by
  cases e with
  | malformed => simp [message]
  | shape e => exact e.message_ne_empty
  | invalid e => exact e.message_ne_empty

namespace ToolError

theorem message_ne_empty (e : ToolError) : e.message ≠ "" := by
  rw [message.eq_def]
  split
  case h_9 e => exact e.message_ne_empty
  case h_10 e => exact e.message_ne_empty
  all_goals simp

def kinds : List String :=
  ["unsupported_node", "missing_operand", "division_by_zero", "indeterminate_form",
    "unbound_variable", "bad_request", "unknown_tool"]

theorem kindName_cases (e : ToolError) :
    (∃ name, e = .unknownTool name) ∧ e.kindName = "unknown_tool" ∨
      (∀ name, e ≠ .unknownTool name) ∧ e.kindName = (e.kind?.map Kind.name).getD "bad_request" := by
  cases e with
  | unknownTool name => exact .inl ⟨⟨name, rfl⟩, rfl⟩
  | read e => exact .inr ⟨by simp, by cases h : e.kind? <;> simp [kindName, kind?, h]⟩
  | engine e => exact .inr ⟨by simp, by cases h : e.kind? <;> simp [kindName, kind?, h]⟩
  | _ => exact .inr ⟨by simp, rfl⟩

theorem kindName_of_kind (kind? : Option Kind) :
    (kind?.map Kind.name).getD "bad_request" ∈ kinds ∧
      (kind?.map Kind.name).getD "bad_request" ≠ "unknown_tool" := by
  cases kind? with
  | none => decide
  | some kind => cases kind <;> decide

theorem kindName_mem (e : ToolError) : e.kindName ∈ kinds := by
  rcases e.kindName_cases with ⟨_, h⟩ | ⟨_, h⟩
  · rw [h]
    decide
  · rw [h]
    exact (kindName_of_kind e.kind?).1

theorem kindName_eq_unknown_iff {e : ToolError} :
    e.kindName = "unknown_tool" ↔ ∃ name, e = .unknownTool name := by
  rcases e.kindName_cases with ⟨hname, h⟩ | ⟨hname, h⟩
  · exact ⟨fun _ => hname, fun _ => h⟩
  · constructor
    · intro hunknown
      exact absurd (h.symm.trans hunknown) (kindName_of_kind e.kind?).2
    · rintro ⟨name, rfl⟩
      exact absurd rfl (hname name)

end ToolError

/-! ## Where a refusal comes from -/

def Tool.treeParams : Tool → List String
  | .substitute => ["expr", "value"]
  | .schema => []
  | _ => ["expr"]

/-- Why a known tool refuses: a parameter that it reads, or its engine. -/
inductive ToolRequest.Refuses (limits : ToolLimits) (r : ToolRequest) (t : Tool) : ToolError → Prop
  | tree {key : String} {e : ToolError} (hkey : key ∈ t.treeParams)
      (h : r.tree limits key = .error e) : Refuses limits r t e
  | text {e : ToolError} (h : r.text "var" = .error e) : Refuses limits r t e
  | order {e : ToolError} (h : r.integer "n" 1 0 limits.maxOrder = .error e) : Refuses limits r t e
  | environment {e : ToolError} (h : r.environment "env" = .error e) : Refuses limits r t e
  | engine (e : Error) : Refuses limits r t (.engine e)

namespace ToolRequest

section
variable {limits : ToolLimits} {r : ToolRequest} {key : String} {e : ToolError}

theorem tree_eq_error (h : r.tree limits key = .error e) :
    e = .missingParam key ∨ e = .notTree key ∨
      ∃ members err, Json.lookup key r.params = some (.obj members) ∧
        Expr.ofMembers limits.maxDepth members = .error err ∧ e = .read err := by
  unfold tree at h
  split at h
  · cases h
    exact .inl rfl
  · next members hmembers =>
    cases herr : Expr.ofMembers limits.maxDepth members with
    | ok x =>
      rw [herr] at h
      cases h
    | error err =>
      rw [herr] at h
      cases h
      exact .inr (.inr ⟨members, err, hmembers, herr, rfl⟩)
  · cases h
    exact .inr (.inl rfl)

theorem text_eq_error (h : r.text key = .error e) : e = .missingParam key ∨ e = .notText key := by
  unfold text at h
  split at h
  · cases h
    exact .inl rfl
  · split_ifs at h
    cases h
    exact .inr rfl
  · cases h
    exact .inr rfl

theorem integer_eq_error {default low high : Int} (h : r.integer key default low high = .error e) :
    e = .notInteger key ∨ e = .outOfRange key low high := by
  unfold integer at h
  split at h
  · cases h
  · split at h
    · cases h
      exact .inl rfl
    · split_ifs at h
      cases h
      exact .inr rfl
  · cases h
    exact .inl rfl

theorem environment_eq_error (h : r.environment key = .error e) :
    e = .notNumbers key ∨ ∃ name, e = .notNumber key name := by
  unfold environment at h
  split at h
  · cases h
  · split at h
    · next name _ _ =>
      cases h
      exact .inr ⟨name, rfl⟩
    · cases h
  · cases h
    exact .inl rfl

end

/-- Parameters are read first, and the engine runs after that. -/
theorem failsOnly_run (limits : ToolLimits) {r : ToolRequest} {t : Tool}
    (ht : Tool.ofName? r.tool = some t) : FailsOnly (r.Refuses limits t) (r.run limits) := by
  have htree {key : String} (hkey : key ∈ t.treeParams) :
      FailsOnly (r.Refuses limits t) (r.tree limits key) := fun _ h => .tree hkey h
  have htext : FailsOnly (r.Refuses limits t) (r.text "var") := fun _ h => .text h
  have hengine {α : Type} (x : Except Error α) :
      FailsOnly (r.Refuses limits t) (x.mapError .engine) := .mapError fun e _ => .engine e
  unfold run
  rw [ht]
  cases t with
  | diff =>
    refine (htree (by decide)).bind fun e => htext.bind fun v => (hengine _).bind fun d => ?_
    split_ifs
    · exact .ok _
    · exact (hengine _).bind fun s => .ok _
  | diffn =>
    refine (htree (by decide)).bind fun e => htext.bind fun v => FailsOnly.bind ?_ fun n =>
      (hengine _).bind fun d => .ok _
    exact fun _ h => .order h
  | simplify => exact (htree (by decide)).bind fun e => (hengine _).bind fun s => .ok _
  | validate => exact (htree (by decide)).bind fun e => .ok _
  | freeSymbols => exact (htree (by decide)).bind fun e => .ok _
  | substitute =>
    exact (htree (by decide)).bind fun e => htext.bind fun v => (htree (by decide)).bind fun w =>
      (hengine _).bind fun s => .ok _
  | eval =>
    refine (htree (by decide)).bind fun e => FailsOnly.bind ?_ fun env =>
      (hengine _).bind fun x => .ok _
    exact fun _ h => .environment h
  | schema => exact .ok _

theorem Refuses.ne_unknown {limits : ToolLimits} {r : ToolRequest} {t : Tool} {e : ToolError}
    (h : r.Refuses limits t e) (name : String) : e ≠ .unknownTool name := by
  rintro rfl
  cases h with
  | tree _ h => simpa using tree_eq_error h
  | text h => simpa using text_eq_error h
  | order h => simpa using integer_eq_error h
  | environment h => simpa using environment_eq_error h

end ToolRequest

/-! ## Responses -/

namespace ToolResponse

/-- A message and a kind, and nothing else. -/
structure IsRefusal (r : ToolResponse) : Prop where
  error_ne : r.error ≠ ""
  kind_mem : r.kind ∈ ToolError.kinds
  result_eq : r.result = none
  string_eq : r.string = ""

structure IsSuccess (r : ToolResponse) : Prop where
  error_eq : r.error = ""
  kind_eq : r.kind = ""

/-- The response has the tree as its text and as an object from which it is read again under
every limit that allows its depth. -/
structure Tells (r : ToolResponse) (e : Expr) : Prop where
  valid : validate e = .ok ()
  string_eq : r.string = e.render
  read_result : ∃ members, r.result = some (.obj members) ∧
    ∀ limit : Int, (e.depth : Int) ≤ limit → Expr.ofMembers limit members = .ok e

theorem isRefusal_of_error (e : ToolError) : (ofOutcome (.error e)).IsRefusal :=
  ⟨e.message_ne_empty, e.kindName_mem, rfl, rfl⟩

theorem isSuccess_of_answer (a : ToolAnswer) : (ofAnswer a).IsSuccess := by
  cases a <;> exact ⟨rfl, rfl⟩

theorem tells_of_tree {e : Expr} (he : e.WellFormed) : (ofAnswer (.tree e)).Tells e := by
  have hvalid := validate_eq_ok_iff.mpr he
  obtain ⟨members, hmembers⟩ := Expr.exists_members he.ne_missing
  refine ⟨hvalid, rfl, members, congrArg some hmembers, fun limit hlimit => ?_⟩
  exact (Expr.ofMembers_toJson he.ne_missing hmembers).mpr ⟨rfl, hvalid, hlimit⟩

end ToolResponse

namespace ToolRequest

variable {limits : ToolLimits} {r : ToolRequest}

theorem handle_cases (limits : ToolLimits) (r : ToolRequest) :
    (∃ e, r.run limits = .error e ∧ r.handle limits = .ofOutcome (.error e)) ∨
      ∃ (t : Tool) (a : ToolAnswer), t.name = r.tool ∧ t.Gives a ∧ r.handle limits = .ofAnswer a := by
  cases hrun : r.run limits with
  | error e => exact .inl ⟨e, rfl, by rw [handle, hrun]⟩
  | ok a =>
    right
    cases ht : Tool.ofName? r.tool with
    | none => simp [run, ht] at hrun
    | some t =>
      exact ⟨t, a, Tool.ofName?_eq_some.mp ht, run_gives ht hrun, by rw [handle, hrun]; rfl⟩

theorem run_unknown_iff :
    (∃ name, r.run limits = .error (.unknownTool name)) ↔ r.tool ∉ Tool.names := by
  rw [← Tool.ofName?_eq_none]
  cases ht : Tool.ofName? r.tool with
  | none => exact ⟨fun _ => rfl, fun _ => ⟨r.tool, by rw [run, ht]⟩⟩
  | some t =>
    refine iff_of_false ?_ (by simp)
    rintro ⟨name, h⟩
    exact (failsOnly_run limits ht _ h).ne_unknown name rfl

theorem handle_kind_unknown_iff :
    (r.handle limits).kind = "unknown_tool" ↔ r.tool ∉ Tool.names := by
  rw [← @run_unknown_iff limits r, handle]
  cases r.run limits with
  | error e =>
    simp only [Except.error.injEq, ← ToolError.kindName_eq_unknown_iff]
    rfl
  | ok a =>
    have hkind := (ToolResponse.isSuccess_of_answer a).kind_eq
    simp [ToolResponse.ofOutcome, hkind]

theorem handle_eval_result {v : Json} (htool : r.tool = "eval")
    (h : (r.handle limits).result = some v) : ∃ x : Float, v = .num x ∧ x.isFinite = true := by
  rcases handle_cases limits r with ⟨e, _, hr⟩ | ⟨t, a, ht, hgives, hr⟩
  · rw [hr] at h
    cases h
  · obtain rfl : t = .eval := Tool.eq_of_name_eq (ht.trans htool)
    cases hgives with
    | tree hmem _ => exact absurd hmem (by decide)
    | number x =>
      rw [hr, ToolResponse.ofAnswer] at h
      dsimp only at h
      split_ifs at h with hfinite
      exact ⟨x, (Option.some.inj h).symm, hfinite⟩

end ToolRequest

open Decimal (Binary64)

/-- Every call of a tool, whatever its parameters and the limits, is either refused with a
message and a kind alone or succeeds without both, and the kind says that the tool is unknown
exactly if it is. The tools that tell a tree tell a valid one, in the same way as text and as
object, and a number that is told has an exact value. -/
theorem handle_response (limits : ToolLimits) (r : ToolRequest) :
    ((r.handle limits).IsRefusal ∨ (r.handle limits).IsSuccess) ∧
      ((r.handle limits).kind = "unknown_tool" ↔ r.tool ∉ Tool.names) ∧
      (r.tool ∈ ["diff", "diffn", "simplify", "substitute"] → (r.handle limits).error = "" →
        ∃ e, (r.handle limits).Tells e) ∧
      ∀ x, r.tool = "eval" → (r.handle limits).result = some (.num x) →
        x.isFinite = true ∧ ∃ q : ℚ, (Binary64.ofFloat x).rational? = some q := by
  refine ⟨?_, ToolRequest.handle_kind_unknown_iff, ?_, ?_⟩
  · rcases ToolRequest.handle_cases limits r with ⟨e, _, h⟩ | ⟨t, a, _, _, h⟩
    · exact .inl (h ▸ ToolResponse.isRefusal_of_error e)
    · exact .inr (h ▸ ToolResponse.isSuccess_of_answer a)
  · intro htool herror
    rcases ToolRequest.handle_cases limits r with ⟨e, _, h⟩ | ⟨t, a, ht, hgives, h⟩
    · rw [h] at herror
      exact absurd herror e.message_ne_empty
    · cases hgives with
      | tree _ he => exact ⟨_, h ▸ ToolResponse.tells_of_tree he⟩
      | _ => simp [← ht, Tool.name] at htool
  · intro x htool hresult
    obtain ⟨y, hy, hfinite⟩ := ToolRequest.handle_eval_result htool hresult
    cases hy
    exact ⟨hfinite, Decimal.isFinite_iff_rational.mp hfinite⟩

/-- A derivative that is told as a tree, a quotient of numbers that is told as a number, and
a tool that is not there. -/
theorem handle_response_power :
    let limits : ToolLimits := ⟨0, -1⟩
    let x : Json := .obj [("name", .str "x"), ("type", .str "sym")]
    let y : Json := .obj [("name", .str "y"), ("type", .str "sym")]
    let power : ToolRequest := ⟨"diff", [("expr", .obj [("type", .str "func"), ("name", .str "pow"),
      ("args", .arr [x, x])]), ("var", .str "x"), ("raw", .null)]⟩
    let quotient : ToolRequest := ⟨"eval", [("expr", .obj [("type", .str "div"), ("left", x),
      ("right", y)]), ("env", .obj [("x", .num 1), ("y", .num 4)])]⟩
    let other : ToolRequest := ⟨"Diff", [("expr", .null)]⟩
    (power.tool ∈ ["diff", "diffn", "simplify", "substitute"] ∧ (power.handle limits).error = "" ∧
      ∃ e, (power.handle limits).Tells e) ∧
    (quotient.tool = "eval" ∧ ∃ z, (quotient.handle limits).result = some (.num z) ∧
      ∃ q : ℚ, (Binary64.ofFloat z).rational? = some q) ∧
    (other.tool ∉ Tool.names ∧ (other.handle limits).kind = "unknown_tool") := by
  intro limits x y power quotient other
  have hpower : (power.handle limits).error = "" := by decide +kernel
  have hquotient : ∃ z, (quotient.handle limits).result = some (.num z) := by
    have hsome : (quotient.handle limits).result.isSome = true := by decide +kernel
    obtain ⟨v, hv⟩ := Option.isSome_iff_exists.mp hsome
    obtain ⟨z, rfl, _⟩ := ToolRequest.handle_eval_result rfl hv
    exact ⟨z, hv⟩
  have hother : other.tool ∉ Tool.names := by decide
  refine ⟨⟨by decide, hpower, ?_⟩, ⟨rfl, ?_⟩, hother, ?_⟩
  · exact (handle_response limits power).2.2.1 (by decide) hpower
  · obtain ⟨z, hz⟩ := hquotient
    exact ⟨z, hz, ((handle_response limits quotient).2.2.2 z rfl hz).2⟩
  · exact (handle_response limits other).2.1.mpr hother

end SymbolicCalculus
