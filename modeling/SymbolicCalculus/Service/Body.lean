import SymbolicCalculus.Tool.Decode

/-!
# Request bodies

A body is read up to a limit of bytes. One JSON value is taken from it. What follows
the value is refused, also where it lies beyond the limit, but a stray closing bracket
goes unnoticed. Requests must name a tool, batches must hold calls that all do.
-/

set_option autoImplicit false

namespace SymbolicCalculus.Service

/-- The characters that begin within the limit, and whether the body goes on
beyond it. -/
def visible : Nat → List Char → List Char × Bool
  | _, [] => ([], false)
  | 0, _ :: _ => ([], true)
  | n + 1, c :: cs =>
    if n + 1 < c.utf8Size then ([c], true)
    else
      let (seen, more) := visible (n + 1 - c.utf8Size) cs
      (c :: seen, more)

structure FieldError where
  path : String
  field : String
  bound : String
  deriving DecidableEq, Repr

def FieldError.message (e : FieldError) : String :=
  "Key: '" ++ e.path ++ "' Error:Field validation for '" ++ e.field ++ "' failed on the '" ++
    e.bound ++ "' tag"

inductive BodyError where
  | tooLarge
  | malformed
  | trailing
  | invalid (first : FieldError) (rest : List FieldError)
  deriving DecidableEq, Repr

def BodyError.message : BodyError → String
  | .tooLarge => "http: request body too large"
  | .malformed => "invalid JSON"
  | .trailing => "invalid JSON: trailing data"
  | .invalid first rest =>
    "invalid request: " ++ "\n".intercalate ((first :: rest).map FieldError.message)

def BodyError.status : BodyError → Nat
  | .tooLarge => 413
  | _ => 400

/-- Does more follow a value than blanks? A closing bracket counts as the end, and a
text that goes on beyond the limit does not end in blanks. -/
def hasTrailing (rest : List Char) (more : Bool) : Bool :=
  match rest.dropWhile Json.isSpace with
  | [] => more
  | c :: _ => c ≠ ']' && c ≠ '\x7d'

/-- The first value of a body, what is visible behind it, and whether the body goes on
beyond the limit. A number at the limit might go on as well, and so does not end there. -/
def firstValue (limit : Nat) (body : String) : Except BodyError (Json × List Char × Bool) :=
  let (seen, more) := visible limit body.toList
  match Json.scan .start seen with
  | .malformed => .error .malformed
  | .value v rest => .ok (v, rest, more)
  | .unfinished r =>
    match r.atEnd? with
    | some (.num x) => if more then .error .tooLarge else .ok (.num x, [], false)
    | some v => .ok (v, [], more)
    | none => .error (if more then .tooLarge else .malformed)

def readBody {α : Type} (limit : Nat) (read : Json → Option α) (check : α → List FieldError)
    (body : String) : Except BodyError α := do
  let (v, rest, more) ← firstValue limit body
  match read v with
  | none => .error .malformed
  | some a =>
    if hasTrailing rest more then .error .trailing
    else
      match check a with
      | [] => .ok a
      | first :: rest => .error (.invalid first rest)

def toolErrors (path : String) (r : ToolRequest) : List FieldError :=
  if r.tool = "" then [⟨path ++ ".Tool", "Tool", "required"⟩] else []

def callErrors (index : Nat) : List ToolRequest → List FieldError
  | [] => []
  | r :: rest =>
    toolErrors ("BatchRequest.Calls[" ++ Decimal.ofNat index ++ "]") r ++ callErrors (index + 1) rest

def batchErrors (b : BatchRequest) : List FieldError :=
  match b.calls with
  | none => [⟨"BatchRequest.Calls", "Calls", "required"⟩]
  | some [] => [⟨"BatchRequest.Calls", "Calls", "min"⟩]
  | some calls => callErrors 0 calls

def readTool (limit : Nat) (body : String) : Except BodyError ToolRequest :=
  readBody limit (ToolRequest.ofJson? true) (toolErrors "ToolRequest") body

def readBatch (limit : Nat) (body : String) : Except BodyError (List ToolRequest) := do
  let b ← readBody limit BatchRequest.ofJson? batchErrors body
  .ok (b.calls.getD [])

end SymbolicCalculus.Service
