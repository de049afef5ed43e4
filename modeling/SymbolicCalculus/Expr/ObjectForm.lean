import SymbolicCalculus.Error
import SymbolicCalculus.Json.Reader
import SymbolicCalculus.Json.Writer

/-!
# Trees as JSON objects

Every node is an object whose `type` names its kind and whose other members hold
its parts. Writing is total. Reading follows the same grammar, counts levels from
the root and then refuses a tree with defects.
-/

set_option autoImplicit false

namespace SymbolicCalculus

/-! ## Node types -/

inductive NodeType where
  | num
  | sym
  | binary (op : Operator)
  | neg
  | stmt
  | func
  deriving DecidableEq, Repr

def NodeType.name : NodeType → String
  | .num => "num"
  | .sym => "sym"
  | .binary .add => "add"
  | .binary .sub => "sub"
  | .binary .mul => "mul"
  | .binary .div => "div"
  | .binary .pow => "pow"
  | .neg => "neg"
  | .stmt => "stmt"
  | .func => "func"

def NodeType.all : List NodeType :=
  [.num, .sym, .binary .add, .binary .sub, .binary .mul, .binary .div, .binary .pow,
    .neg, .stmt, .func]

def NodeType.ofName? (name : String) : Option NodeType :=
  NodeType.all.find? fun t => t.name = name

def Operator.leftMember : Operator → String
  | .pow => "base"
  | _ => "left"

def Operator.rightMember : Operator → String
  | .pow => "exp"
  | _ => "right"

/-! ## Writing -/

namespace Expr

mutual
/-- The object of a tree, its members in the order of their names. An operand
that was never given is `null`. -/
def toJson : Expr → Json
  | .missing => .null
  | .num v => .obj [("type", .str "num"), ("value", .str (Decimal.ofInt v.toInt))]
  | .sym name => .obj [("name", .str name), ("type", .str "sym")]
  | .binary op l r =>
    .obj [(op.leftMember, toJson l), (op.rightMember, toJson r),
      ("type", .str (NodeType.binary op).name)]
  | .neg x => .obj [("expr", toJson x), ("type", .str "neg")]
  | .call name args =>
    .obj [("args", .arr (toJsonAll args)), ("name", .str name), ("type", .str "func")]
  | .stmt x => .obj [("expr", toJson x), ("type", .str "stmt")]
def toJsonAll : List Expr → List Json
  | [] => []
  | a :: as => toJson a :: toJsonAll as
end

def toText : Expr → Except Error String
  | .missing => .error (.fault .noExpression)
  | e => .ok e.toJson.text

end Expr

/-! ## Reading -/

inductive ShapeError where
  | noObject
  | tooDeep (limit : Int)
  | noType
  | badType
  | unknownType (type : String)
  | noMember (type member : String)
  | notObject (type member : String)
  | notText (type member : String)
  | noValue
  | badNumeral (text : String)
  | notIntegral (x : Float)
  | tooLarge (x : Float)
  | badValue
  | argsNotArray
  | argNotObject (index : Nat)
  | inMember (type member : String) (e : ShapeError)
  | inArg (index : Nat) (e : ShapeError)

def ShapeError.message : ShapeError → String
  | .noObject => "expression must be an object"
  | .tooDeep limit => "expression nested deeper than " ++ Decimal.ofInt limit
  | .noType => "missing 'type' field"
  | .badType => "field 'type' must be a non-empty string"
  | .unknownType type => "unknown expression type: " ++ type
  | .noMember type member => type ++ ": missing " ++ Text.quoted member
  | .notObject type member => type ++ ": " ++ Text.quoted member ++ " must be an object"
  | .notText type member => type ++ ": " ++ Text.quoted member ++ " must be a non-empty string"
  | .noValue => "num: missing 'value'"
  | .badNumeral text => "invalid num value: " ++ text
  | .notIntegral x => "num: value " ++ Decimal.general x ++ " is not an integer"
  | .tooLarge x => "num: value " ++ Decimal.general x ++ " overflows int64"
  | .badValue => "num: 'value' must be an integer string"
  | .argsNotArray => "func: 'args' must be an array"
  | .argNotObject i => "func: args[" ++ Decimal.ofNat i ++ "] must be an object"
  | .inMember type member e => type ++ ": " ++ member ++ ": " ++ e.message
  | .inArg i e => "func: args[" ++ Decimal.ofNat i ++ "]: " ++ e.message

namespace ObjectForm

abbrev Members := List (String × Json)

def typeName (members : Members) : Except ShapeError String :=
  match Json.lookup "type" members with
  | none => .error .noType
  | some (.str s) => if s = "" then .error .badType else .ok s
  | some _ => .error .badType

def textMember (type member : String) (members : Members) : Except ShapeError String :=
  match Json.lookup member members with
  | none => .error (.noMember type member)
  | some (.str s) => if s = "" then .error (.notText type member) else .ok s
  | some _ => .error (.notText type member)

/-- An integer as decimal digits in a string, or as a number that is exactly an
integer. -/
def integerMember (members : Members) : Except ShapeError Int64 :=
  match Json.lookup "value" members with
  | none | some .null => .error .noValue
  | some (.str s) =>
    match Decimal.toWord? s with
    | some v => .ok v
    | none => .error (.badNumeral s)
  | some (.num x) =>
    match (Decimal.Binary64.ofFloat x).toInt? with
    | none => .error (.notIntegral x)
    | some i => if Decimal.fitsWord i then .ok (.ofInt i) else .error (.tooLarge x)
  | some _ => .error .badValue

/-- A member that must be the object of a tree, read by `read`. -/
def treeMember (read : Members → Except ShapeError Expr) (type member : String)
    (members : Members) : Except ShapeError Expr :=
  match Json.lookup member members with
  | none => .error (.noMember type member)
  | some (.obj inner) => (read inner).mapError (.inMember type member)
  | some _ => .error (.notObject type member)

def readArgs (read : Members → Except ShapeError Expr) (index : Nat) :
    List Json → Except ShapeError (List Expr)
  | [] => .ok []
  | .obj inner :: rest => do
    let a ← (read inner).mapError (.inArg index)
    let as ← readArgs read (index + 1) rest
    .ok (a :: as)
  | _ :: _ => .error (.argNotObject index)

/-- The arguments of a call; none are given if the member is absent or `null`. -/
def argsMember (read : Members → Except ShapeError Expr) (members : Members) :
    Except ShapeError (List Expr) :=
  match Json.lookup "args" members with
  | none | some .null => .ok []
  | some (.arr items) => readArgs read 0 items
  | some _ => .error .argsNotArray

/-- Reads an object with so many levels left below the limit. -/
def read (limit : Int) : Nat → Members → Except ShapeError Expr
  | 0, _ => .error (.tooDeep limit)
  | levels + 1, members => do
    let type ← typeName members
    match NodeType.ofName? type with
    | none => .error (.unknownType type)
    | some .num => do
      let v ← integerMember members
      .ok (.num v)
    | some .sym => do
      let name ← textMember type "name" members
      .ok (.sym name)
    | some (.binary op) => do
      let l ← treeMember (read limit levels) type op.leftMember members
      let r ← treeMember (read limit levels) type op.rightMember members
      .ok (.binary op l r)
    | some .neg => do
      let x ← treeMember (read limit levels) type "expr" members
      .ok (.neg x)
    | some .stmt => do
      let x ← treeMember (read limit levels) type "expr" members
      .ok (.stmt x)
    | some .func => do
      let name ← textMember type "name" members
      let args ← argsMember (read limit levels) members
      .ok (.call name args)

end ObjectForm

inductive ReadError where
  | malformed
  | shape (e : ShapeError)
  | invalid (e : Error)

namespace ReadError

def message : ReadError → String
  | .malformed => "invalid JSON"
  | .shape e => e.message
  | .invalid e => e.message

def kind? : ReadError → Option Kind
  | .invalid e => e.kind?
  | _ => none

def subject : ReadError → Expr
  | .invalid e => e.subject
  | _ => .missing

end ReadError

def defaultDepth : Int := 512

namespace Expr

def ofMembers (limit : Int) (members : ObjectForm.Members) : Except ReadError Expr := do
  let e ← (ObjectForm.read limit limit.toNat members).mapError .shape
  (validate e).mapError .invalid
  .ok e

def ofJson (limit : Int) : Json → Except ReadError Expr
  | .obj members => if Json.membersFinite members then ofMembers limit members else .error .malformed
  | .null => .error (.shape .noObject)
  | _ => .error .malformed

def ofText (limit : Int) (text : String) : Except ReadError Expr :=
  match Json.parse? text.toList with
  | some v => ofJson limit v
  | none => .error .malformed

end Expr

end SymbolicCalculus
