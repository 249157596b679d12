import ProgramFlow.Syntax.Ty
import ProgramFlow.Syntax.Operator
/-!
Three-address instructions over local variables, with the variables each of them reads and defines.
-/
namespace ProgramFlow

inductive Literal
  | int (value : Int32)
  | long (value : Int64)
  | null
  | other (text : String)
  deriving DecidableEq, Repr

/-- An operator applied to two variables. -/
structure BinaryExpr where
  op : Operator
  left : VarId
  right : VarId
  deriving DecidableEq, Repr

inductive FieldAccess
  | static (field : FieldId)
  | instance (base : VarId) (field : FieldId)
  deriving DecidableEq, Repr

namespace FieldAccess

def field : FieldAccess → FieldId
  | static f => f
  | .instance _ f => f

def base? : FieldAccess → Option VarId
  | static _ => none
  | .instance b _ => some b

end FieldAccess

structure ArrayAccess where
  base : VarId
  index : VarId
  deriving DecidableEq, Repr

inductive CallKind
  | static | special | virtual | interface
  deriving DecidableEq, Repr

/-- A method as a call names it: by the class it is looked up in and its name. -/
structure MethodRef where
  owner : ClassId
  name : String
  deriving DecidableEq, Repr

structure Call where
  lhs : Option VarId
  kind : CallKind
  target : MethodRef
  receiver : Option VarId
  args : List VarId
  deriving DecidableEq, Repr

/-- Branch targets are positions in the body of the method. -/
inductive Instr
  | entry
  | exit
  | nop
  | new (lhs : VarId) (ty : Ty)
  | literal (lhs : VarId) (value : Literal)
  | copy (lhs rhs : VarId)
  | binary (lhs : VarId) (exp : BinaryExpr)
  | neg (lhs operand : VarId)
  | arrayLength (lhs array : VarId)
  | cast (lhs operand : VarId) (ty : Ty)
  | loadField (lhs : VarId) (access : FieldAccess)
  | storeField (access : FieldAccess) (rhs : VarId)
  | loadArray (lhs : VarId) (access : ArrayAccess)
  | storeArray (access : ArrayAccess) (rhs : VarId)
  | invoke (call : Call)
  | branch (cond : BinaryExpr) (target : Nat)
  | switch (scrutinee : VarId) (cases : List (Int32 × Nat)) (otherwise : Nat)
  | goto (target : Nat)
  | ret (value : Option VarId)
  | unknown (tag : String) (lhs : Option VarId) (reads : List VarId)
  deriving DecidableEq, Repr

namespace Instr

/-- The variable that the instruction assigns. -/
def assigned? : Instr → Option VarId
  | new lhs _ | literal lhs _ | copy lhs _ | binary lhs _ | neg lhs _ | arrayLength lhs _
  | cast lhs _ _ | loadField lhs _ | loadArray lhs _ => some lhs
  | invoke call => call.lhs
  | unknown _ lhs _ => lhs
  | entry | exit | nop | storeField .. | storeArray .. | branch .. | switch .. | goto _ | ret _ =>
    none

/-- The variables that the instruction reads, in order. -/
def uses : Instr → List VarId
  | entry | exit | nop | new .. | literal .. | goto _ => []
  | copy _ rhs => [rhs]
  | binary _ exp | branch exp _ => [exp.left, exp.right]
  | neg _ operand | cast _ operand _ => [operand]
  | arrayLength _ array => [array]
  | loadField _ access => access.base?.toList
  | storeField access rhs => access.base?.toList ++ [rhs]
  | loadArray _ access => [access.base, access.index]
  | storeArray access rhs => [access.base, access.index, rhs]
  | invoke call => call.receiver.toList ++ call.args
  | switch scrutinee _ _ => [scrutinee]
  | ret value => value.toList
  | unknown _ _ reads => reads

/-- The variable assigned by an instruction that does nothing else: neither traps nor touches the
heap nor leaves the method. -/
def pureAssigned? : Instr → Option VarId
  | literal lhs _ | copy lhs _ | neg lhs _ => some lhs
  | binary lhs exp => if exp.op.divides then none else some lhs
  | _ => none

def call? : Instr → Option Call
  | invoke call => some call
  | _ => none

def isInvoke (i : Instr) : Bool := i.call?.isSome

/-- The instructions that stand for the two ends of a method. -/
def isEnd : Instr → Bool
  | entry | exit => true
  | _ => false

/-- The positions that control may jump to. -/
def targets : Instr → List Nat
  | branch _ target | goto target => [target]
  | switch _ cases otherwise => cases.map Prod.snd ++ [otherwise]
  | _ => []

/-- Points a conditional or unconditional jump elsewhere. -/
def retarget (target : Nat) : Instr → Instr
  | branch cond _ => branch cond target
  | goto _ => goto target
  | i => i

def label : Instr → String
  | entry => "entry"
  | exit => "exit"
  | nop => "nop"
  | new .. => "new"
  | literal .. => "literal"
  | copy .. => "copy"
  | binary .. => "binary"
  | neg .. => "neg"
  | arrayLength .. => "array-length"
  | cast .. => "cast"
  | loadField .. => "load-field"
  | storeField .. => "store-field"
  | loadArray .. => "load-array"
  | storeArray .. => "store-array"
  | invoke _ => "invoke"
  | branch .. => "if"
  | switch .. => "switch"
  | goto _ => "goto"
  | ret _ => "return"
  | unknown tag _ _ => tag

theorem assigned?_of_pureAssigned? {i : Instr} {v : VarId} (h : i.pureAssigned? = some v) :
    i.assigned? = some v := by
  cases i <;> simp_all [pureAssigned?, assigned?]

end Instr

end ProgramFlow
