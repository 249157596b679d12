import ProgramFlow.Document.Decode
import ProgramFlow.Document.Encode
import ProgramFlow.Syntax.Instr
/-!
Types and instructions in documents.
-/
namespace ProgramFlow

open Json (fields named? nameIn one? three? two? unit? variant)

namespace Ty

/-- The names of the types without components. -/
def names : List (String × Ty) :=
  [("Int", int), ("Boolean", boolean), ("Byte", byte), ("Short", short), ("Char", char),
    ("Long", long), ("Float", float), ("Double", double), ("Null", null), ("Void", void)]

def toJson : Ty → Json
  | object c => variant "Class" c
  | array t => variant "Array" t.toJson
  | t => nameIn names t

/-- A type with fewer than `depth` array types around its innermost element type. -/
def ofJson? : (depth : Nat) → Json → Option Ty
  | 0, _ => none
  | depth + 1, j => do
    match ← j.variant? with
    | ("Class", some c) => object <$> decode c
    | ("Array", some t) => array <$> ofJson? depth t
    | (name, content) => unit? (← names.lookup name) content

end Ty

instance : Encode Ty := ⟨Ty.toJson⟩
instance : Decode Ty := ⟨Ty.ofJson? Json.maxDepth⟩

instance : Encode Literal := ⟨fun
  | .int c => variant "Int" c
  | .long c => variant "Long" c
  | .null => .string "Null"
  | .other s => variant "Other" s⟩

instance : Decode Literal := ⟨fun j => do
  match ← j.variant? with
  | ("Int", some c) => .int <$> decode c
  | ("Long", some c) => .long <$> decode c
  | ("Null", c) => unit? .null c
  | ("Other", some s) => .other <$> decode s
  | _ => none⟩

def Operator.names : List (String × Operator) :=
  [("Add", add), ("Sub", sub), ("Mul", mul), ("Div", div), ("Rem", rem), ("Eq", eq), ("Ne", ne),
    ("Lt", lt), ("Gt", gt), ("Le", le), ("Ge", ge), ("Shl", shl), ("Shr", shr), ("Ushr", ushr),
    ("And", and), ("Or", or), ("Xor", xor)]

instance : Encode Operator := ⟨nameIn Operator.names⟩
instance : Decode Operator := ⟨named? Operator.names⟩

def CallKind.names : List (String × CallKind) :=
  [("Static", static), ("Special", special), ("Virtual", virtual), ("Interface", interface)]

instance : Encode CallKind := ⟨nameIn CallKind.names⟩
instance : Decode CallKind := ⟨named? CallKind.names⟩

instance : Encode BinaryExpr :=
  ⟨fun e => .object [("op", json e.op), ("left", json e.left), ("right", json e.right)]⟩

instance : Decode BinaryExpr := ⟨three? BinaryExpr.mk "op" "left" "right"⟩

instance : Encode FieldAccess := ⟨fun
  | .static f => variant "Static" f
  | .instance b f => fields "Instance" [("base", json b), ("field", json f)]⟩

instance : Decode FieldAccess := ⟨fun j => do
  match ← j.variant? with
  | ("Static", some f) => .static <$> decode f
  | ("Instance", some c) => two? FieldAccess.instance "base" "field" (← c.fields?)
  | _ => none⟩

instance : Encode ArrayAccess := ⟨fun a => .object [("base", json a.base), ("index", json a.index)]⟩
instance : Decode ArrayAccess := ⟨two? ArrayAccess.mk "base" "index"⟩

instance : Encode MethodRef := ⟨fun r => .object [("class", json r.owner), ("name", json r.name)]⟩
instance : Decode MethodRef := ⟨two? MethodRef.mk "class" "name"⟩

instance : Encode Call := ⟨fun c => .object
  [("lhs", json c.lhs), ("kind", json c.kind), ("method_ref", json c.target),
    ("receiver", json c.receiver), ("args", json c.args)]⟩

instance : Decode Call := ⟨fun j => do
  match ← j.record? ["lhs", "kind", "method_ref", "receiver", "args"] with
  | [lhs, kind, target, receiver, args] =>
    return ⟨← decode lhs, ← decode kind, ← decode target, ← decode receiver, ← decode args⟩
  | _ => none⟩

instance : Encode Instr := ⟨fun
  | .entry => .string "Entry"
  | .exit => .string "Exit"
  | .nop => .string "Nop"
  | .new lhs ty => fields "New" [("lhs", json lhs), ("ty", json ty)]
  | .literal lhs x => fields "AssignLiteral" [("lhs", json lhs), ("literal", json x)]
  | .copy lhs rhs => fields "Copy" [("lhs", json lhs), ("rhs", json rhs)]
  | .binary lhs exp => fields "Binary" [("lhs", json lhs), ("exp", json exp)]
  | .neg lhs x => fields "Neg" [("lhs", json lhs), ("operand", json x)]
  | .arrayLength lhs a => fields "ArrayLength" [("lhs", json lhs), ("array", json a)]
  | .cast lhs x ty => fields "Cast" [("lhs", json lhs), ("operand", json x), ("ty", json ty)]
  | .loadField lhs a => fields "LoadField" [("lhs", json lhs), ("access", json a)]
  | .storeField a rhs => fields "StoreField" [("access", json a), ("rhs", json rhs)]
  | .loadArray lhs a => fields "LoadArray" [("lhs", json lhs), ("access", json a)]
  | .storeArray a rhs => fields "StoreArray" [("access", json a), ("rhs", json rhs)]
  | .invoke c => variant "Invoke" c
  | .branch cond t => fields "If" [("cond", json cond), ("target", json t)]
  | .switch v cases d => fields "Switch" [("var", json v), ("cases", json cases), ("default", json d)]
  | .goto t => fields "Goto" [("target", json t)]
  | .ret v => fields "Return" [("value", json v)]
  | .unknown tag lhs reads =>
    fields "Unknown" [("tag", json tag), ( "def", json lhs), ("uses", json reads)]⟩

/-- A variant with fields. -/
def Instr.ofFields? (name : String) (c : Json) : Option Instr :=
  match name with
  | "New" => two? Instr.new "lhs" "ty" c
  | "AssignLiteral" => two? Instr.literal "lhs" "literal" c
  | "Copy" => two? Instr.copy "lhs" "rhs" c
  | "Binary" => two? Instr.binary "lhs" "exp" c
  | "Neg" => two? Instr.neg "lhs" "operand" c
  | "ArrayLength" => two? Instr.arrayLength "lhs" "array" c
  | "Cast" => three? Instr.cast "lhs" "operand" "ty" c
  | "LoadField" => two? Instr.loadField "lhs" "access" c
  | "StoreField" => two? Instr.storeField "access" "rhs" c
  | "LoadArray" => two? Instr.loadArray "lhs" "access" c
  | "StoreArray" => two? Instr.storeArray "access" "rhs" c
  | "If" => two? Instr.branch "cond" "target" c
  | "Switch" => three? Instr.switch "var" "cases" "default" c
  | "Goto" => one? Instr.goto "target" c
  | "Return" => one? Instr.ret "value" c
  | "Unknown" => three? Instr.unknown "tag" "def" "uses" c
  | _ => none

instance : Decode Instr := ⟨fun j => do
  match ← j.variant? with
  | ("Entry", c) => unit? .entry c
  | ("Exit", c) => unit? .exit c
  | ("Nop", c) => unit? .nop c
  | ("Invoke", some c) => .invoke <$> decode c
  | (name, some c) => Instr.ofFields? name (← c.fields?)
  | _ => none⟩

end ProgramFlow
