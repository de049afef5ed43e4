import SymbolicCalculus.Config.Basic
import SymbolicCalculus.Log.Record
import SymbolicCalculus.Service.Body
import SymbolicCalculus.Service.Counters

/-!
# Requests and replies

A service takes one request after another. Each gives a reply and log records and
may move the counters; nothing else is kept between requests.
-/

set_option autoImplicit false

namespace SymbolicCalculus.Service

structure Request where
  method : String
  target : String
  headers : List (String × String)
  body : String
  cancelled : Bool

structure Reply where
  status : Nat
  contentType : String
  allow : String
  requestId : String
  body : String
  deriving DecidableEq, Repr

/-- What the world outside supplies: the time, and an id for a request without
one. -/
structure Moment where
  time : String
  freshId : String

/-- A service counts if `counters` are there. -/
structure State where
  config : Config
  counters : Option Counters

/-! ## Routes -/

inductive Route where
  | tool
  | batch
  | schema
  | health
  | metrics
  deriving DecidableEq, Repr

def Route.path : Route → String
  | .tool => "/tool"
  | .batch => "/batch"
  | .schema => "/schema"
  | .health => "/health"
  | .metrics => "/metrics"

def Route.method : Route → String
  | .tool | .batch => "POST"
  | .schema | .health | .metrics => "GET"

def methods : List String :=
  ["CONNECT", "DELETE", "GET", "HEAD", "OPTIONS", "PATCH", "POST", "PUT", "TRACE"]

def rawPath (target : String) : List Char :=
  target.toList.takeWhile (· ≠ '?')

def pathBytes : List Char → List UInt8
  | '%' :: a :: b :: cs =>
    match Json.hexValue a, Json.hexValue b with
    | some x, some y => UInt8.ofNat (x * 16 + y) :: pathBytes cs
    | _, _ => 37 :: pathBytes (a :: b :: cs)
  | c :: cs => (String.singleton c).toUTF8.toList ++ pathBytes cs
  | [] => []

def decodedPath (path : List Char) : String :=
  (String.fromUTF8? ⟨(pathBytes path).toArray⟩).getD (String.ofList path)

inductive Routing where
  | found (r : Route)
  | otherMethod (allow : String)
  | notFound

def State.routes (s : State) : List Route :=
  [.tool, .batch, .schema, .health] ++ if s.counters.isSome then [.metrics] else []

/-- A method that is not known is refused before the path is looked at. -/
def State.route (s : State) (method : String) (path : List Char) : Routing :=
  if !methods.contains method then .otherMethod ""
  else
    match s.routes.find? fun r => r.path.toList = path with
    | none => .notFound
    | some r => if r.method = method then .found r else .otherMethod r.method

/-! ## Calls -/

structure Outcome (α : Type) where
  state : State
  records : List Log.Record
  result : α

def State.call (s : State) (r : ToolRequest) : Outcome ToolResponse :=
  let response := r.handle s.config.toolLimits
  let records : List Log.Record :=
    if response.error = "" then []
    else
      [⟨.debug, "tool failed",
        [("tool", .text r.tool), ("kind", .text response.kind), ("error", .text response.error)]⟩]
  ⟨{ s with counters := s.counters.map fun c => c.observeCall r.tool response }, records, response⟩

def State.callAll (s : State) : List ToolRequest → Outcome (List ToolResponse)
  | [] => ⟨s, [], []⟩
  | r :: rest =>
    let first := s.call r
    let others := first.state.callAll rest
    ⟨others.state, first.records ++ others.records, first.result :: others.result⟩

/-! ## Answers -/

/-- A reply before the request's id is attached. -/
structure Answer where
  status : Nat
  contentType : String
  allow : String
  body : String

def Answer.json (status : Nat) (v : Json) : Answer :=
  ⟨status, "application/json", "", v.text ++ "\n"⟩

def Answer.refusal (status : Nat) (message : String) : Answer :=
  .json status (ToolResponse.refusal message "bad_request").toJson

def State.bodyLimit (s : State) : Nat := s.config.limits.maxBodyBytes.toNat

def State.answerTool (s : State) (body : String) : Outcome Answer :=
  match readTool s.bodyLimit body with
  | .error e => ⟨s, [], .refusal e.status e.message⟩
  | .ok r =>
    let o := s.call r
    ⟨o.state, o.records, .json 200 o.result.toJson⟩

def batchTooLarge (size : Nat) (limit : Int) : String :=
  "batch of " ++ Decimal.ofNat size ++ " calls exceeds limit " ++ Decimal.ofInt limit

/-- A batch of a request that was given up runs no call. -/
def State.answerBatch (s : State) (body : String) (cancelled : Bool) : Outcome Answer :=
  match readBatch s.bodyLimit body with
  | .error e => ⟨s, [], .refusal e.status e.message⟩
  | .ok calls =>
    if s.config.limits.maxBatch < calls.length then
      ⟨s, [], .refusal 400 (batchTooLarge calls.length s.config.limits.maxBatch)⟩
    else
      let s := { s with counters := s.counters.map fun c => c.observeBatch calls.length }
      if cancelled then
        ⟨s, [⟨.warn, "batch aborted",
            [("error", .text "context canceled"), ("calls", .int calls.length)]⟩],
          .refusal 503 "batch aborted: context canceled"⟩
      else
        let o := s.callAll calls
        ⟨o.state, o.records, .json 200 (.obj [("results", .arr (o.result.map (·.toJson)))])⟩

def State.answer (s : State) (now : Moment) (route : Route) (r : Request) : Outcome Answer :=
  match route with
  | .tool => s.answerTool r.body
  | .batch => s.answerBatch r.body r.cancelled
  | .schema => ⟨s, [], ⟨200, "application/json", "", Tool.schemaText⟩⟩
  | .health => ⟨s, [], .json 200 (.obj [("status", .str "ok"), ("time", .str now.time)])⟩
  | .metrics =>
    ⟨s, [], ⟨200, "text/plain", "", (s.counters.map Counters.page).getD ""⟩⟩

/-! ## Exchanges -/

def header? (name : String) (headers : List (String × String)) : Option String :=
  (headers.find? fun h => h.1.toLower = name.toLower).map (·.2)

/-- A request keeps its own id if that is neither empty nor longer than 128
bytes. -/
def Request.id (r : Request) (now : Moment) : String :=
  match header? "X-Request-ID" r.headers with
  | none => now.freshId
  | some id => if id = "" || 128 < id.utf8ByteSize then now.freshId else id

def Request.effectiveMethod (r : Request) : String :=
  if r.method = "" then "GET" else r.method

def requestRecord (method path : String) (status : Nat) (id : String) : Log.Record :=
  ⟨if 500 ≤ status then .error else .info, "request",
    [("method", .text method), ("path", .text path), ("status", .int status),
      ("request_id", .text id)]⟩

/-- Takes one request. It is counted after its reply has been made. -/
def State.handle (s : State) (now : Moment) (r : Request) : Outcome Reply :=
  let path := rawPath r.target
  let id := r.id now
  let method := r.effectiveMethod
  let (label, o) : String × Outcome Answer :=
    match s.route method path with
    | .found route => (route.path, s.answer now route r)
    | .otherMethod allow => ("unmatched", ⟨s, [], ⟨405, "", allow, ""⟩⟩)
    | .notFound => ("unmatched", ⟨s, [], ⟨404, "text/plain", "", "404 page not found\n"⟩⟩)
  let a := o.result
  let counters := o.state.counters.map fun c => c.observeRequest label a.status
  ⟨{ o.state with counters := counters },
    o.records ++ [requestRecord method (decodedPath path) a.status id],
    ⟨a.status, a.contentType, a.allow, id, a.body⟩⟩

def State.handleAll (s : State) (now : Moment) : List Request → Outcome (List Reply)
  | [] => ⟨s, [], []⟩
  | r :: rest =>
    let first := s.handle now r
    let others := first.state.handleAll now rest
    ⟨others.state, first.records ++ others.records, first.result :: others.result⟩

end SymbolicCalculus.Service
