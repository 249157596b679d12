import ProgramFlow.PointsTo.Context
import ProgramFlow.PointsTo.Heap
/-!
Context sensitivity: which context a called method and a new object get.
-/
namespace ProgramFlow.PointsTo

inductive Sensitivity
  /-- All contexts are empty. -/
  | insensitive
  /-- The latest call sites. -/
  | callSite (k : Nat)
  /-- The receiver and the objects whose methods allocated it. -/
  | object (k : Nat)
  /-- As for objects, with the classes that contain the allocations. -/
  | type (k : Nat)
  deriving DecidableEq, Repr

namespace Sensitivity

def depth : Sensitivity → Nat
  | insensitive => 0
  | callSite k | object k | type k => k

def text : Sensitivity → String
  | insensitive => "ci"
  | callSite k => toString k ++ "-call"
  | object k => toString k ++ "-obj"
  | type k => toString k ++ "-type"

def kind : Sensitivity → String
  | insensitive => "insensitive"
  | callSite _ => "call_site"
  | object _ => "object"
  | type _ => "type"

/-- The depth, where the kind has one. -/
def depth? : Sensitivity → Option Nat
  | insensitive => none
  | callSite k | object k | type k => some k

/-- The sensitivity of that kind; a depth that the kind needs must be given. -/
def ofKind? (kind : String) (k : Option Nat) : Option Sensitivity :=
  match kind with
  | "insensitive" => some insensitive
  | "call_site" => callSite <$> k
  | "object" => object <$> k
  | "type" => type <$> k
  | _ => none

/-- A context depth must be positive and not too large. -/
def validate (σ : Sensitivity) : Except ConfigError Unit :=
  match σ with
  | insensitive => .ok ()
  | callSite k | object k | type k =>
    if 1 ≤ k ∧ k ≤ maxContextDepth then .ok () else .error (.depthOutOfRange k)

/-- The context of a method called without a receiver. -/
def staticContext (σ : Sensitivity) (caller : Context) (site : StmtId) : Context :=
  match σ with
  | insensitive => .empty
  | callSite k => caller.append (.callSite site) k
  | object _ | type _ => caller

/-- The context of a method called on a receiver. -/
def instanceContext (σ : Sensitivity) (caller : Context) (site : StmtId)
    (receiverContext : Context) (receiver : ObjId) (obj : Obj) : Context :=
  match σ with
  | insensitive => .empty
  | callSite k => caller.append (.callSite site) k
  | object k => receiverContext.append (.object receiver) k
  | type k => receiverContext.append (.type obj.owner) k

/-- The context of an object allocated in a method, one element shorter than the method's. -/
def heapContext (σ : Sensitivity) (method : Context) : Context :=
  match σ with
  | insensitive => .empty
  | callSite k | object k | type k => method.truncate (k - 1)

end Sensitivity

end ProgramFlow.PointsTo
