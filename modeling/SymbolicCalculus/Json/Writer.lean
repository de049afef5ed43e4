import SymbolicCalculus.Decimal.Format
import SymbolicCalculus.Json.Basic
import SymbolicCalculus.Text.Quoted

/-!
# JSON text

Members are written in the order of the value. In strings the characters that
could end a script or a line elsewhere are escaped beside those that must be.
-/

set_option autoImplicit false

namespace SymbolicCalculus.Json

def codeEscape (c : Char) : List Char :=
  '\\' :: 'u' :: Text.hex 4 c.toNat

def escapedChar (c : Char) : List Char :=
  match c with
  | '"' => ['\\', '"']
  | '\\' => ['\\', '\\']
  | '\x08' => ['\\', 'b']
  | '\x0c' => ['\\', 'f']
  | '\n' => ['\\', 'n']
  | '\r' => ['\\', 'r']
  | '\t' => ['\\', 't']
  | '<' | '>' | '&' | '\u2028' | '\u2029' => codeEscape c
  | c => if c.toNat < 32 then codeEscape c else [c]

def stringChars (s : String) : List Char :=
  '"' :: s.toList.flatMap escapedChar ++ ['"']

mutual
def chars : Json → List Char
  | .null => "null".toList
  | .bool true => "true".toList
  | .bool false => "false".toList
  | .num x => (Decimal.json x).toList
  | .str s => stringChars s
  | .arr items => '[' :: itemChars items ++ [']']
  | .obj members => '\x7b' :: memberChars members ++ ['\x7d']
def itemChars : List Json → List Char
  | [] => []
  | [v] => chars v
  | v :: w :: rest => chars v ++ ',' :: itemChars (w :: rest)
def memberChars : List (String × Json) → List Char
  | [] => []
  | [(key, v)] => stringChars key ++ ':' :: chars v
  | (key, v) :: m :: rest => stringChars key ++ ':' :: chars v ++ ',' :: memberChars (m :: rest)
end

def text (v : Json) : String :=
  String.ofList v.chars

def newline (level : Nat) : List Char :=
  '\n' :: List.replicate (2 * level) ' '

mutual
def indented (level : Nat) : Json → List Char
  | .arr (v :: rest) =>
    '[' :: indentedItems (level + 1) (v :: rest) ++ newline level ++ [']']
  | .obj (m :: rest) =>
    '\x7b' :: indentedMembers (level + 1) (m :: rest) ++ newline level ++ ['\x7d']
  | v => v.chars
def indentedItems (level : Nat) : List Json → List Char
  | [] => []
  | [v] => newline level ++ indented level v
  | v :: w :: rest =>
    newline level ++ indented level v ++ ',' :: indentedItems level (w :: rest)
def indentedMembers (level : Nat) : List (String × Json) → List Char
  | [] => []
  | [(key, v)] => newline level ++ stringChars key ++ ':' :: ' ' :: indented level v
  | (key, v) :: m :: rest =>
    newline level ++ stringChars key ++ ':' :: ' ' :: indented level v ++
      ',' :: indentedMembers level (m :: rest)
end

def indentedText (v : Json) : String :=
  String.ofList (v.indented 0)

end SymbolicCalculus.Json
