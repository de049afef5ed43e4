/-!
# JSON values

An object keeps its members as they were written, repeated names included. The
last member of a name is the one that counts.
-/

set_option autoImplicit false

namespace SymbolicCalculus

inductive Json where
  | null
  | bool (b : Bool)
  | num (x : Float)
  | str (s : String)
  | arr (items : List Json)
  | obj (members : List (String × Json))
  deriving Inhabited

namespace Json

def lookup (name : String) : List (String × Json) → Option Json
  | [] => none
  | (key, v) :: rest =>
    match lookup name rest with
    | some w => some w
    | none => if key = name then some v else none

mutual
def isFinite : Json → Bool
  | .null | .bool _ | .str _ => true
  | .num x => x.isFinite
  | .arr items => itemsFinite items
  | .obj members => membersFinite members
def itemsFinite : List Json → Bool
  | [] => true
  | v :: rest => isFinite v && itemsFinite rest
def membersFinite : List (String × Json) → Bool
  | [] => true
  | (_, v) :: rest => isFinite v && membersFinite rest
end

end Json

end SymbolicCalculus
