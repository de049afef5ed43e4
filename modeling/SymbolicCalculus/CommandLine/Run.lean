import SymbolicCalculus.CommandLine.Flags
import SymbolicCalculus.Config.Basic
import SymbolicCalculus.Expr.Outline
import SymbolicCalculus.Log.Record

/-!
# Running a command

What a command prints and reports, as a function of its words, the standard input
and the files it can see. The result is a text or an error; the log and the error
go to the second output.
-/

set_option autoImplicit false

namespace SymbolicCalculus.CommandLine

/-- What a command can see. `platform` is the name of the system it was built
with. -/
structure Surroundings where
  stdin : String
  file? : String → Option String
  platform : String

inductive Failure where
  | usage (e : UsageError)
  | unknownFormat (format : String)
  | noConfig (file : String)
  | config (file : String) (e : Config.Error)
  | unknownLevel (level : String)
  | noSource (file : String)
  | source (name : String) (e : ReadError)
  | emptyVariable
  | badOrder (limit given : Int)
  | engine (e : Error)

namespace Failure

def noFile (file : String) : String :=
  "open " ++ file ++ ": no such file or directory"

def message : Failure → String
  | .usage e => e.message
  | .unknownFormat format => "unknown output format " ++ Text.quoted format
  | .noConfig file => "read config: " ++ noFile file
  | .config file e => e.message (if file = "" then "" else " " ++ file)
  | .unknownLevel level => Log.Level.unknownMessage level
  | .noSource file => "read " ++ file ++ ": " ++ noFile file
  | .source name e => name ++ ": " ++ e.message
  | .emptyVariable => "--var must not be empty"
  | .badOrder limit given =>
    "--order must be between 0 and " ++ Decimal.ofInt limit ++ ", got " ++ Decimal.ofInt given
  | .engine e => e.message

def kind? : Failure → Option Kind
  | .source _ e => e.kind?
  | .engine e => e.kind?
  | _ => none

def subject : Failure → Expr
  | .source _ e => e.subject
  | .engine e => e.subject
  | _ => .missing

def report (f : Failure) : String :=
  let head :=
    match f.kind? with
    | some kind => "Error [" ++ kind.name ++ "]: "
    | none => "Error: "
  let place := if f.subject.isMissing then "" else "  at: " ++ f.subject.render ++ "\n"
  head ++ f.message ++ "\n" ++ place

end Failure

/-! ## Settings -/

/-- The readers that a program is built with. -/
structure Readers where
  words : List String → Except UsageError Invocation
  document : Config.Reader

def Readers.standard : Readers := ⟨parse, Config.yaml⟩

def loadConfig (readers : Readers) (s : Surroundings) (file : String) : Except Failure Config :=
  if file = "" then (Config.validate .default).mapError (.config file)
  else
    match s.file? file with
    | none => .error (.noConfig file)
    | some text => (Config.parseWith readers.document text).mapError (.config file)

/-- What holds for every command: the form of the output, the configuration and
the logger. A level on the command line outranks the configuration. -/
structure Session where
  asJson : Bool
  config : Config
  logger : Log.Logger

def openSession (readers : Readers) (s : Surroundings) (c : Command) (o : Options) :
    Except Failure Session := do
  if o.output ≠ "plain" && o.output ≠ "json" then .error (.unknownFormat o.output)
  else
    let config ← loadConfig readers s o.config
    let level := if o.logLevel = "" then config.log.level else o.logLevel
    match Log.Level.ofName? level with
    | none => .error (.unknownLevel level)
    | some threshold =>
      .ok ⟨o.output = "json", config,
        ⟨threshold, config.log.format = "json", [("command", .text c.name)]⟩⟩

/-! ## Commands -/

structure Work where
  records : List Log.Record
  result : Except Failure String

def Work.andThen {α : Type} (records : List Log.Record) (x : Except Failure α)
    (next : α → Work) : Work :=
  match x with
  | .error f => ⟨records, .error f⟩
  | .ok a =>
    let w := next a
    ⟨records ++ w.records, w.result⟩

def source (s : Surroundings) (operands : List String) : Except Failure (String × String) :=
  match operands with
  | [] | "-" :: _ => .ok ("stdin", s.stdin)
  | file :: _ =>
    match s.file? file with
    | some text => .ok (file, text)
    | none => .error (.noSource file)

def readRecord (name text : String) : Log.Record :=
  ⟨.debug, "read input", [("source", .text name), ("bytes", .int text.utf8ByteSize)]⟩

def withTree (s : Surroundings) (session : Session) (operands : List String)
    (next : Expr → Work) : Work :=
  Work.andThen [] (source s operands) fun (name, text) =>
    Work.andThen [readRecord name text]
      ((Expr.ofText session.config.limits.maxDepth text).mapError (.source name)) next

def treeText (session : Session) (e : Expr) : Except Failure String :=
  if session.asJson then do
    let text ← e.toText.mapError .engine
    .ok (text ++ "\n")
  else .ok (e.render ++ "\n")

def derivative (limit : Int) (o : Options) (e : Expr) : Except Failure Expr :=
  if o.symbol = "" then .error .emptyVariable
  else if o.order < 0 ∨ limit < o.order then .error (.badOrder limit o.order)
  else if o.raw then (differentiateRaw o.symbol o.order.toNat e).mapError .engine
  else (differentiateTimes o.symbol o.order e).mapError .engine

def diffRecord (o : Options) : Log.Record :=
  ⟨.debug, "differentiated",
    [("var", .text o.symbol), ("order", .int o.order), ("raw", .bool o.raw)]⟩

def versionNumber : String := "0.1.0"

def versionText (s : Surroundings) (asJson : Bool) : String :=
  if asJson then
    (Json.obj [("version", .str versionNumber), ("gitCommit", .str "unknown"),
      ("goVersion", .str s.platform)]).indentedText ++ "\n"
  else
    programName ++ " v" ++ versionNumber ++ "\nGit Commit: unknown\nGo: " ++ s.platform ++ "\n"

def runCommand (s : Surroundings) (session : Session) (c : Command) (o : Options)
    (operands : List String) : Work :=
  match c with
  | .diff =>
    withTree s session operands fun e =>
      Work.andThen [] (derivative session.config.limits.maxOrder o e) fun d =>
        ⟨[diffRecord o], treeText session d⟩
  | .simplify =>
    withTree s session operands fun e =>
      Work.andThen [] ((simplify e).mapError .engine) fun r => ⟨[], treeText session r⟩
  | .validate =>
    withTree s session operands fun e =>
      ⟨[], if session.asJson then treeText session e else .ok ("valid: " ++ e.render ++ "\n")⟩
  | .dump => withTree s session operands fun e => ⟨[], .ok (e.outline 0 ++ "\n")⟩
  | .version => ⟨[], .ok (versionText s session.asJson)⟩

/-! ## The program -/

structure Outcome where
  exit : Nat
  stdout : String
  stderr : String
  deriving DecidableEq, Repr

def Outcome.failed (log : String) (f : Failure) : Outcome :=
  ⟨1, "", log ++ f.report⟩

/-- Without a command, or asked for help, the program has nothing to do. -/
def runWith (readers : Readers) (s : Surroundings) (words : List String) : Outcome :=
  match readers.words words with
  | .error e => .failed "" (.usage e)
  | .ok ⟨none, _, _⟩ => ⟨0, "", ""⟩
  | .ok ⟨some c, o, operands⟩ =>
    if o.help then ⟨0, "", ""⟩
    else
      match openSession readers s c o with
      | .error f => .failed "" f
      | .ok session =>
        let w := runCommand s session c o operands
        let log := session.logger.lines w.records
        match w.result with
        | .error f => .failed log f
        | .ok text => ⟨0, text, log⟩

def run : Surroundings → List String → Outcome :=
  runWith .standard

def filesOf (words : List String) : List String :=
  match parse words with
  | .error _ => []
  | .ok i =>
    (if i.options.config = "" then [] else [i.options.config]) ++
      i.operands.filter (fun f => f ≠ "-")

def readsStdin (words : List String) : Bool :=
  match parse words with
  | .error _ => false
  | .ok ⟨none, _, _⟩ => false
  | .ok ⟨some .version, _, _⟩ => false
  | .ok ⟨some _, _, operands⟩ => operands.isEmpty || operands.head? = some "-"

end SymbolicCalculus.CommandLine
