import SymbolicCalculus.Config.Duration
import SymbolicCalculus.Config.HostPort
import SymbolicCalculus.Tool.Call
import SymbolicCalculus.Yaml.Reader

/-!
# Configuration

The settings of a server and of the command line, in four sections. A document
sets the keys it names and leaves the others at their defaults; the result must
satisfy the bounds of every field.
-/

set_option autoImplicit false

namespace SymbolicCalculus

/-- Timeouts are in nanoseconds. -/
structure ServerSettings where
  addr : String
  readTimeout : Int
  writeTimeout : Int
  requestTimeout : Int
  shutdownTimeout : Int
  deriving DecidableEq, Repr

structure LimitSettings where
  maxBodyBytes : Int
  maxDepth : Int
  maxOrder : Int
  maxBatch : Int
  batchConcurrency : Int
  deriving DecidableEq, Repr

structure LogSettings where
  level : String
  format : String
  deriving DecidableEq, Repr

structure MetricsSettings where
  enabled : Bool
  scope : String
  deriving DecidableEq, Repr

structure Config where
  server : ServerSettings
  limits : LimitSettings
  log : LogSettings
  metrics : MetricsSettings
  deriving DecidableEq, Repr

namespace Config

def seconds (n : Int) : Int := n * 1000000000

def default : Config where
  server := ⟨":8080", seconds 15, seconds 15, seconds 10, seconds 30⟩
  limits := ⟨1048576, defaultDepth, defaultOrder, 64, 8⟩
  log := ⟨"info", "text"⟩
  metrics := ⟨true, "symdiff"⟩

/-! ## Setting keys from nodes -/

def textOf? : Yaml.Node → Option String
  | .scalar _ s => some s
  | .mapping _ => none

/-- A truth value, also in the words of older documents. -/
def boolOf? : Yaml.Node → Option Bool
  | .mapping _ => none
  | .scalar quoted s =>
    match Yaml.resolve quoted s with
    | .bool b => some b
    | .text "y" | .text "Y" | .text "yes" | .text "on" => some true
    | .text "n" | .text "N" | .text "no" | .text "off" => some false
    | _ => none

/-- The word of a double: its integer part, and the least word for all that is
out of range. -/
def wordOfFloat? (x : Float) : Option Int :=
  if x ≤ 9223372036854775808 then
    match (Decimal.Binary64.ofFloat x).truncated? with
    | some i => some (if Decimal.fitsWord i then i else Int64.minValue.toInt)
    | none => some Int64.minValue.toInt
  else none

def wordOf? : Yaml.Node → Option Int
  | .mapping _ => none
  | .scalar quoted s =>
    match Yaml.resolve quoted s with
    | .int i => if Decimal.fitsWord i then some i else none
    | .float x => wordOfFloat? x
    | _ => none

/-- A duration is a text with units; a bare number is none. -/
def durationOf? : Yaml.Node → Option Int
  | .mapping _ => none
  | .scalar quoted s =>
    match Yaml.resolve quoted s with
    | .text t => Duration.parse? t
    | _ => none

/-- The new value of a setting. A null leaves it as it is. -/
def setTo {α : Type} (valueOf? : Yaml.Node → Option α) (n : Yaml.Node) (old : α) : Option α :=
  if n.isNull then some old else valueOf? n

def setServer (c : ServerSettings) (key : String) (n : Yaml.Node) : Option ServerSettings :=
  match key with
  | "addr" => (setTo textOf? n c.addr).map fun v => { c with addr := v }
  | "read_timeout" => (setTo durationOf? n c.readTimeout).map fun v => { c with readTimeout := v }
  | "write_timeout" => (setTo durationOf? n c.writeTimeout).map fun v => { c with writeTimeout := v }
  | "request_timeout" =>
    (setTo durationOf? n c.requestTimeout).map fun v => { c with requestTimeout := v }
  | "shutdown_timeout" =>
    (setTo durationOf? n c.shutdownTimeout).map fun v => { c with shutdownTimeout := v }
  | _ => none

def setLimits (c : LimitSettings) (key : String) (n : Yaml.Node) : Option LimitSettings :=
  match key with
  | "max_body_bytes" => (setTo wordOf? n c.maxBodyBytes).map fun v => { c with maxBodyBytes := v }
  | "max_depth" => (setTo wordOf? n c.maxDepth).map fun v => { c with maxDepth := v }
  | "max_order" => (setTo wordOf? n c.maxOrder).map fun v => { c with maxOrder := v }
  | "max_batch" => (setTo wordOf? n c.maxBatch).map fun v => { c with maxBatch := v }
  | "batch_concurrency" =>
    (setTo wordOf? n c.batchConcurrency).map fun v => { c with batchConcurrency := v }
  | _ => none

def setLog (c : LogSettings) (key : String) (n : Yaml.Node) : Option LogSettings :=
  match key with
  | "level" => (setTo textOf? n c.level).map fun v => { c with level := v }
  | "format" => (setTo textOf? n c.format).map fun v => { c with format := v }
  | _ => none

def setMetrics (c : MetricsSettings) (key : String) (n : Yaml.Node) : Option MetricsSettings :=
  match key with
  | "enabled" => (setTo boolOf? n c.enabled).map fun v => { c with enabled := v }
  | "namespace" => (setTo textOf? n c.scope).map fun v => { c with scope := v }
  | _ => none

def setAll {α : Type} (set : α → String → Yaml.Node → Option α) :
    α → List (String × Yaml.Node) → Option α
  | c, [] => some c
  | c, (key, n) :: rest =>
    match set c key n with
    | some c => setAll set c rest
    | none => none

def setSection {α : Type} (set : α → String → Yaml.Node → Option α) (n : Yaml.Node) (c : α) :
    Option α :=
  if n.isNull then some c
  else
    match n with
    | .mapping entries => setAll set c entries
    | .scalar _ _ => none

def setTop (c : Config) (key : String) (n : Yaml.Node) : Option Config :=
  match key with
  | "server" => (setSection setServer n c.server).map fun v => { c with server := v }
  | "limits" => (setSection setLimits n c.limits).map fun v => { c with limits := v }
  | "log" => (setSection setLog n c.log).map fun v => { c with log := v }
  | "metrics" => (setSection setMetrics n c.metrics).map fun v => { c with metrics := v }
  | _ => none

/-! ## Documents -/

/-- A reader of documents puts the settings of a text into a configuration. -/
abbrev Reader := String → Config → Except Yaml.Error Config

def yaml : Reader := fun text c => do
  let document ← Yaml.parse text.toList
  match setSection setTop document c with
  | some c => .ok c
  | none => .error .malformed

/-! ## Bounds -/

structure Violation where
  area : String
  field : String
  bound : String
  deriving DecidableEq, Repr

def Violation.message (v : Violation) : String :=
  "Key: 'Config." ++ v.area ++ "." ++ v.field ++ "' Error:Field validation for '" ++ v.field ++
    "' failed on the '" ++ v.bound ++ "' tag"

def check (group field : String) (bounds : List (String × Bool)) : List Violation :=
  match bounds.find? fun b => !b.2 with
  | some (bound, _) => [⟨group, field, bound⟩]
  | none => []

def between (low high n : Int) : List (String × Bool) :=
  [("min", low ≤ n), ("max", n ≤ high)]

def serverViolations (c : ServerSettings) : List Violation :=
  check "Server" "Addr" [("required", c.addr ≠ ""), ("hostname_port", HostPort.isValid c.addr)] ++
    check "Server" "ReadTimeout" [("gt", 0 < c.readTimeout)] ++
    check "Server" "WriteTimeout" [("gt", 0 < c.writeTimeout)] ++
    check "Server" "RequestTimeout" [("gt", 0 < c.requestTimeout)] ++
    check "Server" "ShutdownTimeout" [("gt", 0 < c.shutdownTimeout)]

def limitViolations (c : LimitSettings) : List Violation :=
  check "Limits" "MaxBodyBytes" [("min", 1024 ≤ c.maxBodyBytes)] ++
    check "Limits" "MaxDepth" (between 1 100000 c.maxDepth) ++
    check "Limits" "MaxOrder" (between 1 64 c.maxOrder) ++
    check "Limits" "MaxBatch" (between 1 10000 c.maxBatch) ++
    check "Limits" "BatchConcurrency" (between 1 1024 c.batchConcurrency)

def logViolations (c : LogSettings) : List Violation :=
  check "Log" "Level" [("oneof", ["debug", "info", "warn", "error"].contains c.level)] ++
    check "Log" "Format" [("oneof", ["text", "json"].contains c.format)]

def metricsViolations (c : MetricsSettings) : List Violation :=
  check "Metrics" "Namespace" [("required_if", !c.enabled || c.scope ≠ "")]

def violations (c : Config) : List Violation :=
  serverViolations c.server ++ limitViolations c.limits ++ logViolations c.log ++
    metricsViolations c.metrics

inductive Error where
  | malformed
  | invalid (first : Violation) (rest : List Violation)
  deriving DecidableEq, Repr

def Error.message (source : String) : Error → String
  | .malformed => "parse config" ++ source
  | .invalid first rest =>
    "invalid config: " ++ "\n".intercalate ((first :: rest).map Violation.message)

def validate (c : Config) : Except Error Config :=
  match c.violations with
  | [] => .ok c
  | first :: rest => .error (.invalid first rest)

/-- Reads a document over a configuration. A text without one changes nothing. -/
def decode (read : Reader) (text : String) (c : Config) : Except Error Config :=
  match read text c with
  | .ok c => .ok c
  | .error .noDocument => .ok c
  | .error .malformed => .error .malformed

/-- The configuration that a document describes: the defaults with its settings. -/
def parseWith (read : Reader) (text : String) : Except Error Config := do
  let c ← decode read text default
  c.validate

def parse (text : String) : Except Error Config :=
  parseWith yaml text

def toolLimits (c : Config) : ToolLimits :=
  ⟨c.limits.maxDepth, c.limits.maxOrder⟩

end Config

end SymbolicCalculus
