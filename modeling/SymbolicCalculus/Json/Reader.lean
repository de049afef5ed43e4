import SymbolicCalculus.Decimal.Format
import SymbolicCalculus.Json.Basic

/-!
# Reading JSON

The reader takes one character at a time and keeps the open arrays and objects on
a stack, so it can stop after the first value of a longer text and can tell a
text that is wrong from one that is only not finished. `parse?` reads a text that
holds one value and blanks around it.
-/

set_option autoImplicit false

namespace SymbolicCalculus.Json

/-! ## Numbers -/

structure Numeral where
  negative : Bool
  digits : Nat
  places : Nat
  exponentNegative : Bool
  exponent : Nat
  deriving DecidableEq, Repr

def Numeral.value (n : Numeral) : Float :=
  let e : Int := if n.exponentNegative then -(n.exponent : Int) else n.exponent
  let x := Decimal.nearestFloat n.digits (e - n.places)
  if n.negative then -x else x

inductive NumeralPhase where
  | sign
  | zero
  | whole
  | point
  | fraction
  | mark
  | markSign
  | exponent
  deriving DecidableEq, Repr

def NumeralPhase.mayEnd : NumeralPhase → Bool
  | .zero | .whole | .fraction | .exponent => true
  | .sign | .point | .mark | .markSign => false

def digitValue (c : Char) : Nat := c.toNat - 48

def Numeral.pushDigit (n : Numeral) (c : Char) : Numeral :=
  { n with digits := n.digits * 10 + digitValue c }

def Numeral.pushPlace (n : Numeral) (c : Char) : Numeral :=
  { n with digits := n.digits * 10 + digitValue c, places := n.places + 1 }

def Numeral.pushExponent (n : Numeral) (c : Char) : Numeral :=
  { n with exponent := n.exponent * 10 + digitValue c }

/-- The number with one more character, or `none` if that is not part of it. -/
def Numeral.extend (n : Numeral) (phase : NumeralPhase) (c : Char) :
    Option (Numeral × NumeralPhase) :=
  match phase with
  | .sign =>
    if c = '0' then some (n, .zero)
    else if c.isDigit then some (n.pushDigit c, .whole)
    else none
  | .zero =>
    if c = '.' then some (n, .point)
    else if c = 'e' || c = 'E' then some (n, .mark)
    else none
  | .whole =>
    if c.isDigit then some (n.pushDigit c, .whole)
    else if c = '.' then some (n, .point)
    else if c = 'e' || c = 'E' then some (n, .mark)
    else none
  | .point => if c.isDigit then some (n.pushPlace c, .fraction) else none
  | .fraction =>
    if c.isDigit then some (n.pushPlace c, .fraction)
    else if c = 'e' || c = 'E' then some (n, .mark)
    else none
  | .mark =>
    if c.isDigit then some (n.pushExponent c, .exponent)
    else if c = '+' then some (n, .markSign)
    else if c = '-' then some ({ n with exponentNegative := true }, .markSign)
    else none
  | .markSign => if c.isDigit then some (n.pushExponent c, .exponent) else none
  | .exponent => if c.isDigit then some (n.pushExponent c, .exponent) else none

/-! ## Strings -/

/-- Where in a string the reader stands: between characters, after a backslash,
or in a code of which some digits have been read. -/
inductive StringPhase where
  | plain
  | escaped
  | code (count value : Nat)
  deriving DecidableEq, Repr

def hexValue (c : Char) : Option Nat :=
  if c.isDigit then some (c.toNat - 48)
  else if 'a' ≤ c && c ≤ 'f' then some (c.toNat - 87)
  else if 'A' ≤ c && c ≤ 'F' then some (c.toNat - 55)
  else none

def escapeValue : Char → Option Char
  | '"' => some '"'
  | '\\' => some '\\'
  | '/' => some '/'
  | 'b' => some '\x08'
  | 'f' => some '\x0c'
  | 'n' => some '\n'
  | 'r' => some '\r'
  | 't' => some '\t'
  | _ => none

def isHighSurrogate (u : Nat) : Bool := 0xD800 ≤ u && u < 0xDC00

def isLowSurrogate (u : Nat) : Bool := 0xDC00 ≤ u && u < 0xE000

/-- A code on its own; half of a surrogate pair is replaced. -/
def codeChar (u : Nat) : Char :=
  if isHighSurrogate u || isLowSurrogate u then '\uFFFD' else Char.ofNat u

/-- The characters of a sequence of codes, where a surrogate pair is one. -/
def codesToChars : List Nat → List Char
  | [] => []
  | [u] => [codeChar u]
  | u :: w :: rest =>
    if isHighSurrogate u && isLowSurrogate w then
      Char.ofNat (0x10000 + (u - 0xD800) * 0x400 + (w - 0xDC00)) :: codesToChars rest
    else codeChar u :: codesToChars (w :: rest)

/-- What one more character does to a string whose codes so far are given, last
first. -/
inductive StringStep where
  | going (codes : List Nat) (phase : StringPhase)
  | closed
  | malformed

def stringStep (codes : List Nat) (phase : StringPhase) (c : Char) : StringStep :=
  match phase with
  | .plain =>
    if c = '"' then .closed
    else if c = '\\' then .going codes .escaped
    else if c.toNat < 32 then .malformed
    else .going (c.toNat :: codes) .plain
  | .escaped =>
    if c = 'u' then .going codes (.code 0 0)
    else
      match escapeValue c with
      | some d => .going (d.toNat :: codes) .plain
      | none => .malformed
  | .code count value =>
    match hexValue c with
    | none => .malformed
    | some d =>
      let value := value * 16 + d
      if count = 3 then .going (value :: codes) .plain else .going codes (.code (count + 1) value)

/-! ## The reader -/

/-- An array or object that is still open, with what has been read of it, last
first. A `member` waits for the value of its key. -/
inductive Frame where
  | array (items : List Json)
  | object (members : List (String × Json))
  | member (members : List (String × Json)) (key : String)

inductive Phase where
  | value
  | firstItem
  | firstKey
  | key
  | colon
  | separator
  | string (isKey : Bool) (codes : List Nat) (phase : StringPhase)
  | numeral (n : Numeral) (phase : NumeralPhase)
  | word (rest : List Char) (v : Json)
  | complete (v : Json)

structure Reader where
  stack : List Frame
  phase : Phase

def Reader.start : Reader := ⟨[], .value⟩

/-- What one character leads to. A value that stands alone and is no array or
object ends only where the next character begins. -/
inductive Progress where
  | going (r : Reader)
  | finished (v : Json)
  | finishedBefore (v : Json)
  | malformed

def isSpace (c : Char) : Bool :=
  c = ' ' || c = '\t' || c = '\n' || c = '\r'

/-- Arrays and objects may be nested this deep. -/
def nestingLimit : Nat := 10000

def deliver (v : Json) : List Frame → Option Reader
  | [] => some ⟨[], .complete v⟩
  | .array items :: stack => some ⟨.array (v :: items) :: stack, .separator⟩
  | .member members key :: stack => some ⟨.object ((key, v) :: members) :: stack, .separator⟩
  | .object _ :: _ => none

def goOn : Option Reader → Progress
  | some r => .going r
  | none => .malformed

def close (v : Json) : List Frame → Progress
  | [] => .finished v
  | stack => goOn (deliver v stack)

def openContainer (frame : Frame) (phase : Phase) (stack : List Frame) : Progress :=
  if stack.length < nestingLimit then .going ⟨frame :: stack, phase⟩ else .malformed

def firstDigit (c : Char) : Option (Numeral × NumeralPhase) :=
  let zero : Numeral := ⟨false, 0, 0, false, 0⟩
  if c = '-' then some ({ zero with negative := true }, .sign) else zero.extend .sign c

def beginValue (r : Reader) (c : Char) : Progress :=
  if isSpace c then .going r
  else
    match c with
    | '"' => .going ⟨r.stack, .string false [] .plain⟩
    | '[' => openContainer (.array []) .firstItem r.stack
    | '\x7b' => openContainer (.object []) .firstKey r.stack
    | 't' => .going ⟨r.stack, .word "rue".toList (.bool true)⟩
    | 'f' => .going ⟨r.stack, .word "alse".toList (.bool false)⟩
    | 'n' => .going ⟨r.stack, .word "ull".toList .null⟩
    | c =>
      match firstDigit c with
      | some (n, phase) => .going ⟨r.stack, .numeral n phase⟩
      | none => .malformed

def separate (r : Reader) (c : Char) : Progress :=
  if isSpace c then .going r
  else
    match c, r.stack with
    | ',', .array items :: stack => .going ⟨.array items :: stack, .value⟩
    | ',', .object members :: stack => .going ⟨.object members :: stack, .key⟩
    | ']', .array items :: stack => close (.arr items.reverse) stack
    | '\x7d', .object members :: stack => close (.obj members.reverse) stack
    | _, _ => .malformed

def endString (stack : List Frame) (isKey : Bool) (codes : List Nat) : Progress :=
  let s := String.ofList (codesToChars codes.reverse)
  if isKey then
    match stack with
    | .object members :: stack => .going ⟨.member members s :: stack, .colon⟩
    | _ => .malformed
  else goOn (deliver (.str s) stack)

def endNumeral (stack : List Frame) (n : Numeral) (c : Char) : Progress :=
  match deliver (.num n.value) stack with
  | some ⟨_, .complete v⟩ => .finishedBefore v
  | some r => separate r c
  | none => .malformed

def Reader.step (r : Reader) (c : Char) : Progress :=
  match r.phase with
  | .value => beginValue r c
  | .firstItem =>
    match c, r.stack with
    | ']', .array items :: stack => close (.arr items.reverse) stack
    | c, _ => beginValue r c
  | .firstKey =>
    if isSpace c then .going r
    else
      match c, r.stack with
      | '"', stack => .going ⟨stack, .string true [] .plain⟩
      | '\x7d', .object members :: stack => close (.obj members.reverse) stack
      | _, _ => .malformed
  | .key =>
    if isSpace c then .going r
    else if c = '"' then .going ⟨r.stack, .string true [] .plain⟩
    else .malformed
  | .colon =>
    if isSpace c then .going r
    else if c = ':' then .going ⟨r.stack, .value⟩
    else .malformed
  | .separator => separate r c
  | .string isKey codes phase =>
    match stringStep codes phase c with
    | .going codes phase => .going ⟨r.stack, .string isKey codes phase⟩
    | .closed => endString r.stack isKey codes
    | .malformed => .malformed
  | .numeral n phase =>
    match n.extend phase c with
    | some (n, phase) => .going ⟨r.stack, .numeral n phase⟩
    | none => if phase.mayEnd then endNumeral r.stack n c else .malformed
  | .word [] _ => .malformed
  | .word (d :: rest) v =>
    if c = d then
      if rest.isEmpty then goOn (deliver v r.stack) else .going ⟨r.stack, .word rest v⟩
    else .malformed
  | .complete v => .finishedBefore v

inductive Scan where
  | value (v : Json) (rest : List Char)
  | unfinished (r : Reader)
  | malformed

def scan (r : Reader) : List Char → Scan
  | [] => .unfinished r
  | c :: cs =>
    match r.step c with
    | .going r => scan r cs
    | .finished v => .value v cs
    | .finishedBefore v => .value v (c :: cs)
    | .malformed => .malformed

def Reader.atEnd? (r : Reader) : Option Json :=
  match r.stack, r.phase with
  | [], .complete v => some v
  | [], .numeral n phase => if phase.mayEnd then some (.num n.value) else none
  | _, _ => none

/-- One value with nothing but blanks around it. Its numbers may be infinite. -/
def parse? (cs : List Char) : Option Json :=
  match scan .start cs with
  | .value v rest => if rest.all isSpace then some v else none
  | .unfinished r => r.atEnd?
  | .malformed => none

end SymbolicCalculus.Json
