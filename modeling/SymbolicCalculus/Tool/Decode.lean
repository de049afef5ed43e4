import SymbolicCalculus.Json.Reader
import SymbolicCalculus.Tool.Call

/-!
# Reading tool requests

A request is an object with the members `tool` and `params`, a batch one with the
member `calls`. Names of members match without regard to case. A member that
comes again adds to what is there: parameters are merged, and the calls of a later
list are read over those of an earlier one. `null` takes back parameters and
calls, and leaves a tool's name as it is.
-/

set_option autoImplicit false

namespace SymbolicCalculus

/-- Lower case for ASCII letters and the two signs that fold into them. -/
def foldedChar (c : Char) : Char :=
  if c = '\u017F' then 's' else if c = '\u212A' then 'k' else c.toLower

def isNamed (name key : String) : Bool :=
  key.toList.map foldedChar = name.toList

namespace ToolRequest

def empty : ToolRequest := ⟨"", []⟩

/-- Reads the members over a request. Other members are refused if `strict`. -/
def readMembers (strict : Bool) (r : ToolRequest) : List (String × Json) → Option ToolRequest
  | [] => some r
  | (key, v) :: rest =>
    if isNamed "tool" key then
      match v with
      | .str s => readMembers strict { r with tool := s } rest
      | .null => readMembers strict r rest
      | _ => none
    else if isNamed "params" key then
      match v with
      | .obj members =>
        if Json.membersFinite members then
          readMembers strict { r with params := r.params ++ members } rest
        else none
      | .null => readMembers strict { r with params := [] } rest
      | _ => none
    else if strict then none
    else readMembers strict r rest

def readOver (strict : Bool) (r : ToolRequest) : Json → Option ToolRequest
  | .null => some r
  | .obj members => readMembers strict r members
  | _ => none

def ofJson? (strict : Bool) (v : Json) : Option ToolRequest :=
  readOver strict empty v

end ToolRequest

structure BatchRequest where
  calls : Option (List ToolRequest)

namespace BatchRequest

def readCalls : List ToolRequest → List Json → Option (List ToolRequest)
  | _, [] => some []
  | [], v :: rest => do
    let r ← ToolRequest.ofJson? true v
    let rs ← readCalls [] rest
    some (r :: rs)
  | old :: olds, v :: rest => do
    let r ← old.readOver true v
    let rs ← readCalls olds rest
    some (r :: rs)

def readMembers (b : BatchRequest) : List (String × Json) → Option BatchRequest
  | [] => some b
  | (key, v) :: rest =>
    if isNamed "calls" key then
      match v with
      | .arr items =>
        match readCalls (b.calls.getD []) items with
        | some calls => readMembers ⟨some calls⟩ rest
        | none => none
      | .null => readMembers ⟨none⟩ rest
      | _ => none
    else none

def ofJson? : Json → Option BatchRequest
  | .null => some ⟨none⟩
  | .obj members => readMembers ⟨none⟩ members
  | _ => none

end BatchRequest

end SymbolicCalculus
