import SymbolicCalculus.Tool.Call

/-!
# Counters of a service

Counts of tool calls by outcome, of timed calls by tool, of requests by route and
status, and the sizes of batches. The page lists every family under its name, its
series in the order of their labels.
-/

set_option autoImplicit false

namespace SymbolicCalculus.Service

abbrev Labels := List String

abbrev Tally := List (Labels × Nat)

namespace Tally

def bump (labels : Labels) : Tally → Tally
  | [] => [(labels, 1)]
  | (l, n) :: rest =>
    if labels = l then (l, n + 1) :: rest
    else if labels < l then (labels, 1) :: (l, n) :: rest
    else (l, n) :: bump labels rest

def count (labels : Labels) : Tally → Nat
  | [] => 0
  | (l, n) :: rest => if labels = l then n else count labels rest

def total : Tally → Nat
  | [] => 0
  | (_, n) :: rest => n + total rest

end Tally

structure Counters where
  scope : String
  calls : Tally
  timed : Tally
  requests : Tally
  batches : List Nat

namespace Counters

def start (scope : String) : Counters := ⟨scope, [], [], [], []⟩

/-- A tool's own name, or one name for all that are not tools. -/
def toolLabel (tool : String) : String :=
  if Tool.names.contains tool then tool else "unknown"

def outcomeLabel (r : ToolResponse) : String :=
  if r.error = "" then "ok" else r.kind

def observeCall (c : Counters) (tool : String) (r : ToolResponse) : Counters :=
  { c with
    calls := c.calls.bump [outcomeLabel r, toolLabel tool]
    timed := c.timed.bump [toolLabel tool] }

def observeBatch (c : Counters) (size : Nat) : Counters :=
  { c with batches := size :: c.batches }

def observeRequest (c : Counters) (route : String) (status : Nat) : Counters :=
  { c with requests := c.requests.bump [route, Decimal.ofNat status] }

/-! ## The page -/

def amount (n : Nat) : String := Decimal.general (Float.ofNat n)

def labelled (names : List String) (values : Labels) : String :=
  "\x7b" ++ ",".intercalate ((names.zip values).map fun (name, v) => name ++ "=\"" ++ v ++ "\"") ++ "\x7d"

def series (name : String) (labels : List String) (t : Tally) : List String :=
  t.map fun (values, n) => name ++ labelled labels values ++ " " ++ amount n

def header (name help type : String) : List String :=
  ["# HELP " ++ name ++ " " ++ help, "# TYPE " ++ name ++ " " ++ type]

def family (name help : String) (labels : List String) (t : Tally) : List String :=
  if t.isEmpty then [] else header name help "counter" ++ series name labels t

def bounds : List Nat := [1, 2, 4, 8, 16, 32, 64, 128, 256, 512, 1024]

def bucket (name bound : String) (n : Nat) : String :=
  name ++ "_bucket" ++ labelled ["le"] [bound] ++ " " ++ amount n

def batchFamily (name : String) (sizes : List Nat) : List String :=
  header name "Number of calls per batch request." "histogram" ++
    bounds.map (fun b => bucket name (Decimal.ofNat b) (sizes.countP fun n => decide (n ≤ b))) ++
    [bucket name "+Inf" sizes.length, name ++ "_sum " ++ amount (sizes.foldl (· + ·) 0),
      name ++ "_count " ++ amount sizes.length]

def page (c : Counters) : String :=
  "\n".intercalate
    (batchFamily (c.scope ++ "_batch_size") c.batches ++
      family (c.scope ++ "_http_requests_total") "HTTP requests by route and status code."
        ["route", "status"] c.requests ++
      family (c.scope ++ "_tool_calls_total") "Tool calls by tool and outcome kind."
        ["kind", "tool"] c.calls ++
      series (c.scope ++ "_tool_duration_seconds_count") ["tool"] c.timed)

end Counters

end SymbolicCalculus.Service
