import SymbolicCalculus.CommandLine.Run
import SymbolicCalculus.Proofs.EnforcedLimits
import SymbolicCalculus.Proofs.WrittenText

/-!
# The command line and the tools agree

The command for derivatives and the tools for them read trees, check orders and tell errors
each in its own way. Under the same limits they give the same tree, which the command prints
as JSON, or fail for a reason of the same kind, which the command leaves out where the tool
calls the request bad.
-/

set_option autoImplicit false

namespace SymbolicCalculus
namespace CommandLine

/-! ## The words of the command -/

section
variable {flags : List Flag} {o o' : Options} {word : String}

end

section
variable {readers : Readers} {s : Surroundings} {file : String} {config : Config}

end

/-! ## Agreement -/

section
variable {text : String} {limit : Int}

end

/-- The standard output is a JSON text of an object that is read as the tree under every limit
that allows its depth, and so is the text unless it is nested too deeply to be read at all. -/
structure Outcome.Prints (o : Outcome) (e : Expr) : Prop where
  exit_eq : o.exit = 0
  decodes : ∃ text members, o.stdout = text ++ "\n" ∧ Json.Written (.obj members) text.toList ∧
    ∀ limit : Int, (e.depth : Int) ≤ limit → Expr.ofMembers limit members = .ok e ∧
      ((Json.obj members).height ≤ Json.nestingLimit → Expr.ofText limit text = .ok e)

/-- Nothing is printed, and a report that names this kind, or none, ends the log. -/
structure Outcome.FailsAs (o : Outcome) (kind : Option String) : Prop where
  exit_eq : o.exit = 1
  stdout_eq : o.stdout = ""
  reports : ∃ (log : String) (f : Failure), o.stderr = log ++ f.report ∧ f.kind?.map Kind.name = kind

def reportedKind (kind : String) : Option String :=
  if kind = "bad_request" then none else some kind

/-- The same tree, or a failure of the same kind. -/
inductive Outcome.Agrees (o : Outcome) (r : ToolResponse) : Prop
  | success {e : Expr} (hsuccess : r.IsSuccess) (htells : r.Tells e) (hprints : o.Prints e)
  | failure (hrefusal : r.IsRefusal) (hfails : o.FailsAs (reportedKind r.kind))

section
variable {s : Surroundings} {config : Config} {o : Options} {outcome : Outcome}
  {members : ObjectForm.Members} {limits : ToolLimits} {r : ToolRequest}
  {engine : Expr → Except Error Expr}

end

end CommandLine

/-! ## The tools for derivatives -/

namespace ToolRequest

variable {limits : ToolLimits} {r r' : ToolRequest} {members : ObjectForm.Members} {v : String}

theorem tree_of_object {key : String} (h : Json.lookup key r.params = some (.obj members)) :
    r.tree limits key = (Expr.ofMembers limits.maxDepth members).mapError .read := by
  simp only [tree, h]

theorem text_of_str {key : String} (h : Json.lookup key r.params = some (.str v)) (hv : v ≠ "") :
    r.text key = .ok v := by
  simp only [text, h, if_neg hv]

/-- The request is for the derivative of this tree by this variable. -/
structure Poses (r : ToolRequest) (members : ObjectForm.Members) (v : String) : Prop where
  expr : Json.lookup "expr" r.params = some (.obj members)
  var : Json.lookup "var" r.params = some (.str v)

theorem Poses.run_diffn {n : Int} (h : r.Poses members v) (htool : r.tool = "diffn") (hv : v ≠ "")
    (hn : r.AsksOrder n) (hlow : 0 ≤ n) (hhigh : n ≤ limits.maxOrder) :
    r.run limits = (Expr.ofMembers limits.maxDepth members).mapError .read >>= fun e =>
      (differentiateTimes v n e).mapError .engine >>= fun d => .ok (.tree d) := by
  rw [ToolRequest.run_diffn htool, tree_of_object h.expr, text_of_str h.var hv,
    integer_order_iff.mpr ⟨hn, hlow, hhigh⟩]
  rfl

end ToolRequest

namespace CommandLine
open ToolRequest

end CommandLine
end SymbolicCalculus
