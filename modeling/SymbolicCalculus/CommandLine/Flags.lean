import SymbolicCalculus.Decimal.Radix
import SymbolicCalculus.Text.Quoted

/-!
# Commands and flags

The words of a command line are sorted into a command, flags with their values
and operands. Flags may stand anywhere, a repeated flag counts as last given, and
`--` ends the flags.
-/

set_option autoImplicit false

namespace SymbolicCalculus.CommandLine

inductive Command where
  | diff
  | simplify
  | validate
  | dump
  | version
  deriving DecidableEq, Repr

def Command.name : Command → String
  | .diff => "diff"
  | .simplify => "simplify"
  | .validate => "validate"
  | .dump => "dump"
  | .version => "version"

def Command.all : List Command := [.diff, .simplify, .validate, .dump, .version]

def Command.ofName? (name : String) : Option Command :=
  Command.all.find? fun c => c.name = name

def programName : String := "symdiff"

inductive Flag where
  | config
  | logLevel
  | output
  | help
  | symbol
  | order
  | raw
  deriving DecidableEq, Repr

namespace Flag

def name : Flag → String
  | .config => "config"
  | .logLevel => "log-level"
  | .output => "output"
  | .help => "help"
  | .symbol => "var"
  | .order => "order"
  | .raw => "raw"

def letter? : Flag → Option Char
  | .output => some 'o'
  | .help => some 'h'
  | .order => some 'n'
  | _ => none

def isSwitch : Flag → Bool
  | .help | .raw => true
  | _ => false

def ofCommand : Option Command → List Flag
  | some .diff => [.config, .logLevel, .output, .help, .symbol, .order, .raw]
  | _ => [.config, .logLevel, .output, .help]

def byName? (flags : List Flag) (name : String) : Option Flag :=
  flags.find? fun f => f.name = name

def byLetter? (flags : List Flag) (c : Char) : Option Flag :=
  flags.find? fun f => f.letter? = some c

def title (f : Flag) : String :=
  match f.letter? with
  | some c => "-" ++ String.singleton c ++ ", --" ++ f.name
  | none => "--" ++ f.name

end Flag

structure Options where
  config : String
  logLevel : String
  output : String
  help : Bool
  symbol : String
  order : Int
  raw : Bool
  deriving DecidableEq, Repr

def Options.default : Options := ⟨"", "", "plain", false, "x", 1, false⟩

inductive UsageError where
  | unknownCommand (word path : String)
  | badSyntax (word : String)
  | unknownFlag (name : String)
  | unknownLetter (c : Char) (letters : String)
  | noValue (word : String)
  | noLetterValue (c : Char) (letters : String)
  | badInteger (value : String) (f : Flag) (e : Decimal.WordError)
  | badBool (value : String) (f : Flag)
  | tooManyOperands (given : Nat)
  deriving DecidableEq, Repr

def firstByte (c : Char) : Char :=
  match (String.singleton c).toUTF8.toList with
  | b :: _ => Char.ofNat b.toNat
  | [] => c

def badValue (value : String) (f : Flag) (reader reason : String) : String :=
  "invalid argument " ++ Text.quoted value ++ " for " ++ Text.quoted f.title ++ " flag: " ++
    reader ++ ": parsing " ++ Text.quoted value ++ ": " ++ reason

def UsageError.message : UsageError → String
  | .unknownCommand word path => "unknown command " ++ Text.quoted word ++ " for " ++ Text.quoted path
  | .badSyntax word => "bad flag syntax: " ++ word
  | .unknownFlag name => "unknown flag: --" ++ name
  | .unknownLetter c letters =>
    "unknown shorthand flag: " ++ Text.quotedAlone (firstByte c) ++ " in -" ++ letters
  | .noValue word => "flag needs an argument: " ++ word
  | .noLetterValue c letters =>
    "flag needs an argument: " ++ Text.quotedAlone (firstByte c) ++ " in -" ++ letters
  | .badInteger value f .syntaxError => badValue value f "strconv.ParseInt" "invalid syntax"
  | .badInteger value f .outOfRange => badValue value f "strconv.ParseInt" "value out of range"
  | .badBool value f => badValue value f "strconv.ParseBool" "invalid syntax"
  | .tooManyOperands given => "accepts at most 1 arg(s), received " ++ Decimal.ofNat given

/-! ## The command -/

/-- Does the word take the next one as its value, as far as the flags of the
program itself tell? A flag that is not known is taken to. -/
def takesNext (flags : List Flag) (word : String) : Bool :=
  let isSwitch (f? : Option Flag) : Bool := (f?.map Flag.isSwitch).getD false
  match word.toList with
  | '-' :: '-' :: cs =>
    !cs.contains '=' && !isSwitch (Flag.byName? flags (String.ofList cs))
  | ['-', c] => c.utf8Size = 1 && c ≠ '=' && !isSwitch (Flag.byLetter? flags c)
  | _ => false

def searchFlags : List Flag := [.config, .logLevel, .output]

def isFlagWord (word : String) : Bool :=
  match word.toList with
  | '-' :: _ => true
  | _ => false

/-- The first word that is neither a flag nor the value of one. A flag whose value
would be the last word ends the search. -/
def firstOperand? : List String → Option String
  | [] => none
  | word :: rest =>
    if word = "--" then none
    else if takesNext searchFlags word then
      match rest with
      | _ :: next :: more => firstOperand? (next :: more)
      | _ => none
    else if word = "" || isFlagWord word then firstOperand? rest
    else some word

def eraseOperand (name : String) : List String → List String
  | [] => []
  | word :: rest =>
    if word = "--" then word :: rest
    else if takesNext searchFlags word then
      match rest with
      | value :: more => word :: value :: eraseOperand name more
      | [] => [word]
    else if word = name then rest
    else word :: eraseOperand name rest

def findCommand (words : List String) : Except UsageError (Option Command × List String) :=
  match firstOperand? words with
  | none => .ok (none, words)
  | some word =>
    match Command.ofName? word with
    | some c => .ok (some c, eraseOperand word words)
    | none => .error (.unknownCommand word programName)

/-! ## The flags -/

def readBool? : String → Option Bool
  | "1" | "t" | "T" | "TRUE" | "true" | "True" => some true
  | "0" | "f" | "F" | "FALSE" | "false" | "False" => some false
  | _ => none

def Options.set (o : Options) (f : Flag) (value : String) : Except UsageError Options :=
  match f with
  | .config => .ok { o with config := value }
  | .logLevel => .ok { o with logLevel := value }
  | .output => .ok { o with output := value }
  | .symbol => .ok { o with symbol := value }
  | .order =>
    match Decimal.toRadixInt value.toList with
    | .ok n => .ok { o with order := n }
    | .error e => .error (.badInteger value f e)
  | .help =>
    match readBool? value with
    | some b => .ok { o with help := b }
    | none => .error (.badBool value f)
  | .raw =>
    match readBool? value with
    | some b => .ok { o with raw := b }
    | none => .error (.badBool value f)

/-- What a word of flags comes to: all is said, or the next word is a value. -/
inductive FlagWord where
  | done (o : Options)
  | wants (f : Flag) (o : Options) (otherwise : UsageError)

/-- A word of single letters. A letter that takes a value takes the rest of the
word, if there is any. -/
def readLetters (flags : List Flag) (o : Options) : List Char → Except UsageError FlagWord
  | [] => .ok (.done o)
  | c :: rest =>
    match Flag.byLetter? flags c with
    | none => .error (.unknownLetter c (String.ofList (c :: rest)))
    | some f =>
      match rest with
      | '=' :: d :: value => do
        let o ← o.set f (String.ofList (d :: value))
        .ok (.done o)
      | rest =>
        if f.isSwitch then do
          let o ← o.set f "true"
          readLetters flags o rest
        else if rest.isEmpty then
          .ok (.wants f o (.noLetterValue c (String.ofList (c :: rest))))
        else do
          let o ← o.set f (String.ofList rest)
          .ok (.done o)

/-- A word that begins with two hyphens; `cs` is what follows them. -/
def readLong (flags : List Flag) (o : Options) (cs : List Char) : Except UsageError FlagWord :=
  let word := "--" ++ String.ofList cs
  match cs with
  | [] | '-' :: _ | '=' :: _ => .error (.badSyntax word)
  | cs =>
    let name := String.ofList (cs.takeWhile (· ≠ '='))
    match Flag.byName? flags name with
    | none => .error (.unknownFlag name)
    | some f =>
      match cs.dropWhile (· ≠ '=') with
      | _ :: value => do
        let o ← o.set f (String.ofList value)
        .ok (.done o)
      | [] =>
        if f.isSwitch then do
          let o ← o.set f "true"
          .ok (.done o)
        else .ok (.wants f o (.noValue word))

def isOperand (word : String) : Bool :=
  match word.toList with
  | '-' :: _ :: _ => false
  | _ => true

def readFlagWord (flags : List Flag) (o : Options) (word : String) : Except UsageError FlagWord :=
  match word.toList with
  | '-' :: '-' :: cs => readLong flags o cs
  | _ :: cs => readLetters flags o cs
  | [] => .ok (.done o)

def readWords (flags : List Flag) (o : Options) : List String → Except UsageError (Options × List String)
  | [] => .ok (o, [])
  | word :: rest =>
    if isOperand word then do
      let (o, operands) ← readWords flags o rest
      .ok (o, word :: operands)
    else if word = "--" then .ok (o, rest)
    else
      match readFlagWord flags o word with
      | .error e => .error e
      | .ok (.done o) => readWords flags o rest
      | .ok (.wants f o otherwise) =>
        match rest with
        | [] => .error otherwise
        | value :: more =>
          match o.set f value with
          | .error e => .error e
          | .ok o => readWords flags o more

structure Invocation where
  command : Option Command
  options : Options
  operands : List String
  deriving DecidableEq, Repr

def checkOperands : Option Command → List String → Except UsageError Unit
  | some .version, word :: _ => .error (.unknownCommand word (programName ++ " version"))
  | some _, _ :: _ :: rest => .error (.tooManyOperands (rest.length + 2))
  | _, _ => .ok ()

def parse (words : List String) : Except UsageError Invocation := do
  let (command, rest) ← findCommand words
  let (options, operands) ← readWords (Flag.ofCommand command) .default rest
  if !options.help then checkOperands command operands
  .ok ⟨command, options, operands⟩

end SymbolicCalculus.CommandLine
