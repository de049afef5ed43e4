import SymbolicCalculus.Json.Reader
import SymbolicCalculus.Yaml.Basic

/-!
# Reading YAML documents

Block mappings by indentation, with plain scalars on one or more lines, scalars in
single or double quotes on one line, comments and blank lines. Anything else of
YAML is refused: sequences, mappings in braces with entries, anchors, tags and
directives. The lines are taken one by one, with the open mappings on a stack.
-/

set_option autoImplicit false

namespace SymbolicCalculus.Yaml

/-! ## Scalars -/

def singleQuoted : List Char → Option (List Char × List Char)
  | [] => none
  | '\'' :: '\'' :: cs => (singleQuoted cs).map fun (body, rest) => ('\'' :: body, rest)
  | '\'' :: cs => some ([], cs)
  | c :: cs => (singleQuoted cs).map fun (body, rest) => (c :: body, rest)

def escapeValue : Char → Option Char
  | '0' => some '\x00'
  | 'a' => some '\x07'
  | 'b' => some '\x08'
  | 't' => some '\t'
  | '\t' => some '\t'
  | 'n' => some '\n'
  | 'v' => some '\x0b'
  | 'f' => some '\x0c'
  | 'r' => some '\r'
  | 'e' => some '\x1b'
  | ' ' => some ' '
  | '"' => some '"'
  | '/' => some '/'
  | '\\' => some '\\'
  | 'N' => some '\u0085'
  | '_' => some '\u00a0'
  | 'L' => some '\u2028'
  | 'P' => some '\u2029'
  | _ => none

def codeLength : Char → Option Nat
  | 'x' => some 2
  | 'u' => some 4
  | 'U' => some 8
  | _ => none

def isScalarCode (n : Nat) : Bool :=
  n < 0xD800 || (0xE000 ≤ n && n < 0x110000)

inductive QuotePhase where
  | plain
  | escaped
  | code (left value : Nat)

def doubleQuoted (phase : QuotePhase) : List Char → Option (List Char × List Char)
  | [] => none
  | c :: cs =>
    match phase with
    | .plain =>
      if c = '"' then some ([], cs)
      else if c = '\\' then doubleQuoted .escaped cs
      else (doubleQuoted .plain cs).map fun (body, rest) => (c :: body, rest)
    | .escaped =>
      match codeLength c, escapeValue c with
      | some n, _ => doubleQuoted (.code n 0) cs
      | none, some d => (doubleQuoted .plain cs).map fun (body, rest) => (d :: body, rest)
      | none, none => none
    | .code left value =>
      match Json.hexValue c with
      | none => none
      | some d =>
        let value := value * 16 + d
        if left ≤ 1 then
          if isScalarCode value then
            (doubleQuoted .plain cs).map fun (body, rest) => (Char.ofNat value :: body, rest)
          else none
        else doubleQuoted (.code (left - 1) value) cs

def isGap (c : Char) : Bool := c = ' ' || c = '\t'

def isRemark (cs : List Char) : Bool :=
  match cs.dropWhile isGap with
  | [] => true
  | c :: _ => c = '#'

def beforeRemark : List Char → List Char
  | [] => []
  | c :: cs =>
    if isGap c && cs.head? = some '#' then [] else c :: beforeRemark cs

def trimRight (cs : List Char) : List Char :=
  (cs.reverse.dropWhile isGap).reverse

/-- Splits at the first colon that ends a key: one before a blank or at the end. -/
def splitKey : List Char → Option (List Char × List Char)
  | [] => none
  | ':' :: cs =>
    match cs with
    | [] => some ([], [])
    | d :: _ =>
      if isGap d then some ([], cs)
      else (splitKey cs).map fun (key, rest) => (':' :: key, rest)
  | c :: cs => (splitKey cs).map fun (key, rest) => (c :: key, rest)

/-- May a plain scalar begin with this character, given the one after it? -/
def mayBegin (c : Char) (next : Option Char) : Bool :=
  if c = '-' || c = '?' || c = ':' then
    match next with
    | none => false
    | some d => !isGap d
  else !"[]\x7b\x7d,#&*!|>'\"%@\x60".toList.contains c

def plainBegins : List Char → Bool
  | [] => false
  | c :: cs => mayBegin c cs.head?

/-- The scalar that a value is, with no key in it. -/
inductive Inline where
  | empty
  | node (n : Node)

def inline? (cs : List Char) : Option Inline :=
  match cs.dropWhile isGap with
  | [] => some .empty
  | '#' :: _ => some .empty
  | '\'' :: body =>
    match singleQuoted body with
    | some (s, rest) =>
      if isRemark rest then some (.node (.scalar true (String.ofList s))) else none
    | none => none
  | '"' :: body =>
    match doubleQuoted .plain body with
    | some (s, rest) =>
      if isRemark rest then some (.node (.scalar true (String.ofList s))) else none
    | none => none
  | '\x7b' :: '\x7d' :: rest => if isRemark rest then some (.node (.mapping [])) else none
  | body =>
    let s := trimRight (beforeRemark body)
    if plainBegins s && (splitKey s).isNone then
      some (.node (.scalar false (String.ofList s)))
    else none

/-! ## Lines -/

/-- A line with something on it. A scalar that goes on here has `joint` between its parts. -/
structure Line where
  number : Nat
  indent : Nat
  joint : Char
  text : List Char

def isBreak (c : Char) : Bool :=
  c = '\n' || c = '\r' || c = '\u0085' || c = '\u2028' || c = '\u2029'

/-- The separators of lines and paragraphs stand as they are, other breaks become a blank. -/
def jointOf (c : Char) : Char :=
  if c = '\u2028' || c = '\u2029' then c else ' '

/-- The lines of a text, each with what joins it to the one before. A carriage return and
the line feed behind it are one break. -/
def splitLines (joint : Char) : List Char → List (Char × List Char)
  | [] => [(joint, [])]
  | '\r' :: '\n' :: cs => (joint, []) :: splitLines ' ' cs
  | c :: cs =>
    if isBreak c then (joint, []) :: splitLines (jointOf c) cs
    else
      match splitLines joint cs with
      | [] => [(joint, [c])]
      | (first, l) :: ls => (first, c :: l) :: ls

def isAllowed (c : Char) : Bool :=
  let n := c.toNat
  n = 9 || n = 10 || n = 13 || (0x20 ≤ n && n ≤ 0x7E) || n = 0x85 ||
    (0xA0 ≤ n && n ≤ 0xD7FF) || (0xE000 ≤ n && n ≤ 0xFFFD && n != 0xFEFF) || 0x10000 ≤ n

def lineOf? (number : Nat) (joint : Char) (cs : List Char) : Option Line :=
  let body := cs.dropWhile (· = ' ')
  match body.dropWhile isGap with
  | [] => none
  | '#' :: _ => none
  | _ => some ⟨number, cs.length - body.length, joint, trimRight body⟩

def contentLines (number : Nat) : List (Char × List Char) → List Line
  | [] => []
  | (joint, cs) :: rest => (lineOf? number joint cs).toList ++ contentLines (number + 1) rest

/-- Does the line begin or end a document? A blank sets its comment off. -/
def isMarker (mark : List Char) (l : Line) : Bool :=
  l.indent = 0 && mark.isPrefixOf l.text &&
    isRemark (l.text.drop mark.length) && l.text[mark.length]? != some '#'

def firstDocument (lines : List Line) : List Line :=
  let body :=
    match lines with
    | l :: rest => if isMarker ['-', '-', '-'] l then rest else l :: rest
    | [] => []
  body.takeWhile fun l => !isMarker ['-', '-', '-'] l && !isMarker ['.', '.', '.'] l

/-! ## Mappings -/

/-- A mapping that is still open: its entries, last first, and the key whose value
has not been seen. `plainAt` is the line on which a plain scalar may go on. -/
structure Level where
  indent : Nat
  entries : List (String × Node)
  pending : Option String
  plainAt : Option Nat

def Level.settle (l : Level) : Level :=
  match l.pending with
  | none => l
  | some key => ⟨l.indent, (key, .scalar false "") :: l.entries, none, none⟩

def Level.node (l : Level) : Node := .mapping l.settle.entries.reverse

def Level.fill (l : Level) (n : Node) (plainAt : Option Nat) : Option Level :=
  l.pending.map fun key => ⟨l.indent, (key, n) :: l.entries, none, plainAt⟩

structure Stack where
  top : Level
  outer : List Level

/-- Closes the mappings that are deeper than `indent`. The outermost stays open. -/
def closeDeeper (indent : Nat) (top : Level) : List Level → Option Stack
  | [] => some ⟨top, []⟩
  | l :: outer =>
    if indent < top.indent then
      match l.fill top.node none with
      | some l => closeDeeper indent l outer
      | none => none
    else some ⟨top, l :: outer⟩

def entry? (cs : List Char) : Option (String × List Char) :=
  let afterColon (key : List Char) : List Char → Option (String × List Char)
    | ':' :: rest =>
      match rest with
      | [] => some (String.ofList key, [])
      | d :: _ => if isGap d then some (String.ofList key, rest) else none
    | _ => none
  match cs with
  | '\'' :: body => (singleQuoted body).bind fun (key, rest) => afterColon key (rest.dropWhile isGap)
  | '"' :: body =>
    (doubleQuoted .plain body).bind fun (key, rest) => afterColon key (rest.dropWhile isGap)
  | cs =>
    if plainBegins cs then
      (splitKey (beforeRemark cs)).bind fun (key, _) =>
        if key.isEmpty then none
        else some (String.ofList (trimRight key), cs.drop (key.length + 1))
    else none

/-- Adds an entry to a mapping in which no key may stand twice. -/
def Level.add (l : Level) (number : Nat) (key : String) (rest : List Char) : Option Level :=
  let l := l.settle
  if l.entries.any fun e => e.1 = key then none
  else
    match inline? rest with
    | none => none
    | some .empty => some ⟨l.indent, l.entries, some key, none⟩
    | some (.node (.scalar false s)) =>
      some ⟨l.indent, (key, .scalar false s) :: l.entries, none, some number⟩
    | some (.node n) => some ⟨l.indent, (key, n) :: l.entries, none, none⟩

/-- A line deeper than the innermost mapping whose keys are complete goes on with
the plain scalar of the line before. -/
def Level.extend (l : Level) (line : Line) : Option Level :=
  match l.plainAt, l.entries, inline? line.text with
  | some n, (key, .scalar false s) :: entries, some (.node (.scalar false t)) =>
    if n + 1 = line.number then
      some ⟨l.indent, (key, .scalar false (s.push line.joint ++ t)) :: entries, none, some line.number⟩
    else none
  | _, _, _ => none

def Stack.nest (s : Stack) (line : Line) : Option Stack :=
  match s.top.pending with
  | none => (s.top.extend line).map fun top => ⟨top, s.outer⟩
  | some _ =>
    match entry? line.text with
    | some (key, tail) =>
      (Level.add ⟨line.indent, [], none, none⟩ line.number key tail).map fun inner =>
        ⟨inner, s.top :: s.outer⟩
    | none =>
      match inline? line.text with
      | some (.node (.scalar false t)) =>
        (s.top.fill (.scalar false t) (some line.number)).map fun top => ⟨top, s.outer⟩
      | some (.node n) => (s.top.fill n none).map fun top => ⟨top, s.outer⟩
      | _ => none

def Stack.take (s : Stack) (line : Line) : Option Stack := do
  let s ← closeDeeper line.indent s.top s.outer
  if line.indent = s.top.indent then
    let (key, tail) ← entry? line.text
    let top ← s.top.add line.number key tail
    some ⟨top, s.outer⟩
  else if s.top.indent < line.indent then s.nest line
  else none

def Stack.takeAll (s : Stack) : List Line → Option Stack
  | [] => some s
  | line :: rest =>
    match s.take line with
    | some s => s.takeAll rest
    | none => none

def mapping? (first : Line) (rest : List Line) : Option Node := do
  let s ← Stack.takeAll ⟨⟨first.indent, [], none, none⟩, []⟩ (first :: rest)
  let s ← closeDeeper 0 s.top s.outer
  some s.top.node

def node? (first : Line) (rest : List Line) : Option Node :=
  match entry? first.text, rest with
  | some _, _ => mapping? first rest
  | none, [] =>
    match inline? first.text with
    | some (.node n) => some n
    | _ => none
  | none, _ => none

def withoutMark : List Char → List Char
  | '\ufeff' :: cs => cs
  | cs => cs

def parse (text : List Char) : Except Error Node :=
  let cs := withoutMark text
  if !cs.all isAllowed then .error .malformed
  else
    match firstDocument (contentLines 0 (splitLines ' ' cs)) with
    | [] => .error .noDocument
    | first :: rest =>
      match node? first rest with
      | some n => .ok n
      | none => .error .malformed

end SymbolicCalculus.Yaml
