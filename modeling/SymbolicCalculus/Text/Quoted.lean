import SymbolicCalculus.Text.Printable

/-!
# Quoted text

A text between double quotes in which every character can be seen: the quote and
the backslash are escaped, printable characters stand for themselves, seven
control characters have a letter, and all else is a hexadecimal code.
-/

set_option autoImplicit false

namespace SymbolicCalculus.Text

def hex (width n : Nat) : List Char :=
  let digits := Nat.toDigits 16 n
  List.replicate (width - digits.length) '0' ++ digits

def controlLetter : Char → Option Char
  | '\x07' => some 'a'
  | '\x08' => some 'b'
  | '\x0c' => some 'f'
  | '\n' => some 'n'
  | '\r' => some 'r'
  | '\t' => some 't'
  | '\x0b' => some 'v'
  | _ => none

def quotedChar (quote c : Char) : List Char :=
  if c = quote ∨ c = '\\' then ['\\', c]
  else if isPrintable c then [c]
  else
    match controlLetter c with
    | some letter => ['\\', letter]
    | none =>
      if c.toNat < 32 ∨ c.toNat = 127 then '\\' :: 'x' :: hex 2 c.toNat
      else if c.toNat < 0x10000 then '\\' :: 'u' :: hex 4 c.toNat
      else '\\' :: 'U' :: hex 8 c.toNat

def quoted (s : String) : String :=
  String.ofList ('"' :: s.toList.flatMap (quotedChar '"') ++ ['"'])

def quotedAlone (c : Char) : String :=
  String.ofList ('\'' :: quotedChar '\'' c ++ ['\''])

end SymbolicCalculus.Text
