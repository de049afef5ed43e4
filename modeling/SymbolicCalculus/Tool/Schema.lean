import SymbolicCalculus.Json.Writer

/-!
# The tools and their schema

Eight tools, each described by the parameters it reads and those it requires.
-/

set_option autoImplicit false

namespace SymbolicCalculus

inductive Tool where
  | diff
  | diffn
  | simplify
  | validate
  | freeSymbols
  | substitute
  | eval
  | schema
  deriving DecidableEq, Repr

namespace Tool

def name : Tool → String
  | .diff => "diff"
  | .diffn => "diffn"
  | .simplify => "simplify"
  | .validate => "validate"
  | .freeSymbols => "free_symbols"
  | .substitute => "substitute"
  | .eval => "eval"
  | .schema => "mcp_spec"

def all : List Tool :=
  [.diff, .diffn, .simplify, .validate, .freeSymbols, .substitute, .eval, .schema]

/-- The names under which calls are counted; no other name is a tool's. -/
def names : List String :=
  ["diff", "diffn", "simplify", "validate", "free_symbols", "substitute", "eval", "mcp_spec"]

/-- The tool that a request of this name runs. -/
def ofName? : String → Option Tool
  | "diff" => some .diff
  | "diffn" => some .diffn
  | "simplify" => some .simplify
  | "validate" => some .validate
  | "free_symbols" => some .freeSymbols
  | "substitute" => some .substitute
  | "eval" => some .eval
  | "mcp_spec" => some .schema
  | _ => none

def description : Tool → String
  | .diff => "Derivative d/dvar, simplified unless raw=true"
  | .diffn => "nth derivative, simplified after every pass. Requires n (int)"
  | .simplify => "Simplify an expression tree"
  | .validate => "Check function names and arities of an expression tree"
  | .freeSymbols => "Return sorted variable names"
  | .substitute => "Substitute var with value"
  | .eval => "Numeric evaluation. env maps variable names to numbers"
  | .schema => "Return this tool schema"

def required : Tool → List String
  | .diff | .diffn => ["expr", "var"]
  | .simplify | .validate | .freeSymbols | .eval => ["expr"]
  | .substitute => ["expr", "var", "value"]
  | .schema => []

def parameters : Tool → List (String × String)
  | .diff => [("expr", "object"), ("raw", "boolean"), ("var", "string")]
  | .diffn => [("expr", "object"), ("n", "integer"), ("var", "string")]
  | .simplify | .validate | .freeSymbols => [("expr", "object")]
  | .substitute => [("expr", "object"), ("value", "object"), ("var", "string")]
  | .eval => [("env", "object"), ("expr", "object")]
  | .schema => []

def describe (t : Tool) : Json :=
  .obj [
    ("description", .str t.description),
    ("inputSchema", .obj [
      ("properties", .obj (t.parameters.map fun (key, type) => (key, .obj [("type", .str type)]))),
      ("required", .arr (t.required.map .str)),
      ("type", .str "object")]),
    ("name", .str t.name)]

def schemaJson : Json :=
  .obj [("tools", .arr (all.map describe))]

def schemaText : String :=
  schemaJson.indentedText

end Tool

end SymbolicCalculus
