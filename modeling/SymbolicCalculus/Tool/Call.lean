import SymbolicCalculus.Derivative
import SymbolicCalculus.Evaluate
import SymbolicCalculus.Expr.ObjectForm
import SymbolicCalculus.Substitute
import SymbolicCalculus.Tool.Schema

/-!
# Tool calls

A request names a tool and carries parameters of any shape. Running it gives an
answer or a refusal, and both are told in one response of four parts.
-/

set_option autoImplicit false

namespace SymbolicCalculus

structure ToolRequest where
  tool : String
  params : List (String × Json)

/-- How deep trees and how high orders may be. A limit that is not positive
stands for the default. -/
structure ToolLimits where
  depth : Int
  order : Int
  deriving DecidableEq, Repr

def defaultOrder : Int := 12

def ToolLimits.maxDepth (l : ToolLimits) : Int :=
  if l.depth ≤ 0 then defaultDepth else l.depth

def ToolLimits.maxOrder (l : ToolLimits) : Int :=
  if l.order ≤ 0 then defaultOrder else l.order

inductive ToolError where
  | unknownTool (name : String)
  | missingParam (key : String)
  | notTree (key : String)
  | notText (key : String)
  | notInteger (key : String)
  | outOfRange (key : String) (low high : Int)
  | notNumbers (key : String)
  | notNumber (key name : String)
  | read (e : ReadError)
  | engine (e : Error)

namespace ToolError

def message : ToolError → String
  | .unknownTool name => "unknown tool: " ++ name
  | .missingParam key => "missing param: " ++ key
  | .notTree key => "invalid type for param " ++ key
  | .notText key => "param " ++ key ++ " must be a non-empty string"
  | .notInteger key => "param " ++ key ++ " must be an integer"
  | .outOfRange key low high =>
    "param " ++ key ++ " must be between " ++ Decimal.ofInt low ++ " and " ++ Decimal.ofInt high
  | .notNumbers key => "param " ++ key ++ " must be an object of numbers"
  | .notNumber key name => "param " ++ key ++ "." ++ name ++ " must be a number"
  | .read e => e.message
  | .engine e => e.message

def kind? : ToolError → Option Kind
  | .read e => e.kind?
  | .engine e => e.kind?
  | _ => none

/-- The kind of an engine's error; a request that no engine has seen is bad. -/
def kindName (e : ToolError) : String :=
  match e with
  | .unknownTool _ => "unknown_tool"
  | e =>
    match e.kind? with
    | some kind => kind.name
    | none => "bad_request"

end ToolError

/-! ## Parameters -/

namespace ToolRequest

def tree (r : ToolRequest) (limits : ToolLimits) (key : String) : Except ToolError Expr :=
  match Json.lookup key r.params with
  | none => .error (.missingParam key)
  | some (.obj members) => (Expr.ofMembers limits.maxDepth members).mapError .read
  | some _ => .error (.notTree key)

def text (r : ToolRequest) (key : String) : Except ToolError String :=
  match Json.lookup key r.params with
  | none => .error (.missingParam key)
  | some (.str s) => if s = "" then .error (.notText key) else .ok s
  | some _ => .error (.notText key)

def integer (r : ToolRequest) (key : String) (default low high : Int) : Except ToolError Int :=
  match Json.lookup key r.params with
  | none => .ok default
  | some (.num x) =>
    match (Decimal.Binary64.ofFloat x).toInt? with
    | none => .error (.notInteger key)
    | some i => if i < low ∨ high < i then .error (.outOfRange key low high) else .ok i
  | some _ => .error (.notInteger key)

def flag (r : ToolRequest) (key : String) : Bool :=
  match Json.lookup key r.params with
  | some (.bool b) => b
  | _ => false

def isNumberOf (members : List (String × Json)) (name : String) : Bool :=
  match Json.lookup name members with
  | some (.num _) => true
  | _ => false

def environment (r : ToolRequest) (key : String) : Except ToolError Environment :=
  match Json.lookup key r.params with
  | none => .ok fun _ => none
  | some (.obj members) =>
    match members.find? fun m => !isNumberOf members m.1 with
    | some (name, _) => .error (.notNumber key name)
    | none =>
      .ok fun name =>
        match Json.lookup name members with
        | some (.num x) => some x
        | _ => none
  | some _ => .error (.notNumbers key)

end ToolRequest

/-! ## Answers -/

inductive ToolAnswer where
  | tree (e : Expr)
  | valid (e : Expr)
  | symbols (names : List String)
  | number (x : Float)
  | schema

/-- Runs a request. Parameters are read in the order in which the tool uses them,
and the first that cannot be read decides. -/
def ToolRequest.run (limits : ToolLimits) (r : ToolRequest) : Except ToolError ToolAnswer :=
  match Tool.ofName? r.tool with
  | none => .error (.unknownTool r.tool)
  | some .diff => do
    let e ← r.tree limits "expr"
    let v ← r.text "var"
    let d ← (differentiate v e).mapError .engine
    if r.flag "raw" then .ok (.tree d)
    else
      let s ← (SymbolicCalculus.simplify d).mapError .engine
      .ok (.tree s)
  | some .diffn => do
    let e ← r.tree limits "expr"
    let v ← r.text "var"
    let n ← r.integer "n" 1 0 limits.maxOrder
    let d ← (differentiateTimes v n e).mapError .engine
    .ok (.tree d)
  | some .simplify => do
    let e ← r.tree limits "expr"
    let s ← (SymbolicCalculus.simplify e).mapError .engine
    .ok (.tree s)
  | some .validate => do
    let e ← r.tree limits "expr"
    .ok (.valid e)
  | some .freeSymbols => do
    let e ← r.tree limits "expr"
    .ok (.symbols e.freeSymbols)
  | some .substitute => do
    let e ← r.tree limits "expr"
    let v ← r.text "var"
    let w ← r.tree limits "value"
    let s ← (SymbolicCalculus.substitute v w e).mapError .engine
    .ok (.tree s)
  | some .eval => do
    let e ← r.tree limits "expr"
    let env ← r.environment "env"
    let x ← (evaluate env e).mapError .engine
    .ok (.number x)
  | some .schema => .ok .schema

/-! ## Responses -/

/-- What a caller sees. Parts that say nothing are left out of its JSON. -/
structure ToolResponse where
  result : Option Json
  string : String
  error : String
  kind : String

namespace ToolResponse

def refusal (message kind : String) : ToolResponse :=
  ⟨none, "", message, kind⟩

/-- A value that is not finite has a text but no number. -/
def ofAnswer : ToolAnswer → ToolResponse
  | .tree e => ⟨some e.toJson, e.render, "", ""⟩
  | .valid e => ⟨some (.obj [("valid", .bool true)]), e.render, "", ""⟩
  | .symbols names => ⟨some (.arr (names.map .str)), "", "", ""⟩
  | .number x => ⟨if x.isFinite then some (.num x) else none, Decimal.general x, "", ""⟩
  | .schema => ⟨some Tool.schemaJson, "", "", ""⟩

def ofOutcome : Except ToolError ToolAnswer → ToolResponse
  | .ok answer => .ofAnswer answer
  | .error e => .refusal e.message e.kindName

def textMember (key s : String) : List (String × Json) :=
  if s = "" then [] else [(key, .str s)]

def members (r : ToolResponse) : List (String × Json) :=
  (r.result.map fun v => ("result", v)).toList ++ textMember "string" r.string ++
    textMember "error" r.error ++ textMember "kind" r.kind

def toJson (r : ToolResponse) : Json :=
  .obj r.members

end ToolResponse

def ToolRequest.handle (limits : ToolLimits) (r : ToolRequest) : ToolResponse :=
  .ofOutcome (r.run limits)

end SymbolicCalculus
