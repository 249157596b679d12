import ProgramFlow.Collection.Buckets
import ProgramFlow.Graph.Supergraph
import ProgramFlow.PointsTo.Result
/-!
Which stores of integers may write what a load of an integer reads. Static fields are the same or
not, instance fields and array elements also need bases that may point to a common object. Loads and
stores are grouped by their places and linked place by place.
-/
namespace ProgramFlow.Interprocedural

/-- The kind of place that a heap access touches. -/
inductive Place
  | staticField (field : FieldId)
  | instanceField (field : FieldId)
  | arrayElement
  deriving DecidableEq, Repr

namespace Place

def ofField : FieldAccess → Place
  | .static f => staticField f
  | .instance _ f => instanceField f

instance : Coded Place where
  code
    | staticField f => [0, f.index]
    | instanceField f => [1, f.index]
    | arrayElement => [2]
  code_injective {a b} h := by
    cases a <;> cases b <;> simp_all [Id.ext_iff]

instance : Ord Place := ⟨compareOn code⟩

instance : Std.TransOrd Place := inferInstanceAs (Std.TransCmp (compareOn (code : Place → _)))

instance : Std.LawfulEqOrd Place where
  compare_self := Std.ReflOrd.compare_self
  eq_of_compare h := code_injective (Std.LawfulEqOrd.eq_of_compare (α := List Nat) h)

end Place

inductive AccessKind
  | load
  | store
  deriving DecidableEq, Repr

structure HeapAccess where
  kind : AccessKind
  place : Place
  base : Option VarId
  /-- The variable that is loaded or stored. -/
  value : VarId
  deriving DecidableEq, Repr

def heapAccess? : Instr → Option HeapAccess
  | .loadField lhs access => some ⟨.load, .ofField access, access.base?, lhs⟩
  | .storeField access rhs => some ⟨.store, .ofField access, access.base?, rhs⟩
  | .loadArray lhs access => some ⟨.load, .arrayElement, some access.base, lhs⟩
  | .storeArray access rhs => some ⟨.store, .arrayElement, some access.base, rhs⟩
  | _ => none

/-- The bases may point to a common object; static fields have none. -/
def mayShareBase (r : PointsTo.Result) : Option VarId → Option VarId → Bool
  | some a, some b => r.mayAlias a b
  | none, none => true
  | _, _ => false

/-- The accesses are at one place, and their bases may be shared. -/
def mayTouchSame (r : PointsTo.Result) (load store : HeapAccess) : Bool :=
  load.place = store.place && mayShareBase r load.base store.base

/-- The accesses to integers among the nodes, in order. -/
def intAccesses (p : Program) (nodes : List StmtId) : Outcome (List (StmtId × HeapAccess)) :=
  nodes.filterMapM fun n => do
    match heapAccess? (← p.instr n) with
    | none => return none
    | some access => return if ← p.isIntVar access.value then some (n, access) else none

/-- The statements that load and those that store at each place, with the bases of the accesses. -/
structure AccessTable where
  loads : Buckets Place (StmtId × Option VarId) := ∅
  stores : Buckets Place (StmtId × Option VarId) := ∅

namespace AccessTable

def add (t : AccessTable) (n : StmtId) (access : HeapAccess) : AccessTable :=
  match access.kind with
  | .load => { t with loads := t.loads.push access.place (n, access.base) }
  | .store => { t with stores := t.stores.push access.place (n, access.base) }

def ofAccesses (l : List (StmtId × HeapAccess)) : AccessTable :=
  l.foldl (fun t (n, access) => t.add n access) {}

end AccessTable

/-- Loads and stores that may touch the same place, found from both sides. -/
structure Aliases where
  /-- The stores of each load. -/
  sources : Buckets StmtId StmtId := ∅
  /-- The loads of each store. -/
  readers : Buckets StmtId StmtId := ∅

namespace Aliases

/-- The stores that may write what the load reads. -/
def storesFor (a : Aliases) (load : StmtId) : List StmtId := a.sources.get load

/-- The loads that may read what the store writes. -/
def loadsFor (a : Aliases) (store : StmtId) : List StmtId := a.readers.get store

def link (a : Aliases) (load store : StmtId) : Aliases where
  sources := a.sources.push load store
  readers := a.readers.push store load

/-- Links the loads at a place with the stores there whose bases may be shared. -/
def linkAt (r : PointsTo.Result) (t : AccessTable) (a : Aliases) (place : Place) : Aliases :=
  (t.loads.get place).foldl
    (fun a (load, base) =>
      (t.stores.get place).foldl
        (fun a (store, base') => if mayShareBase r base base' then a.link load store else a) a)
    a

/-- Links loads and stores, one place after the other. -/
def ofTable (r : PointsTo.Result) (t : AccessTable) (places : List Place) : Aliases :=
  places.foldl (linkAt r t) {}

end Aliases

/-- The loads and stores of integers in a supergraph, by place. -/
def accessTable (p : Program) (g : Supergraph) : Outcome AccessTable := do
  return .ofAccesses (← intAccesses p g.nodes)

def aliases (p : Program) (g : Supergraph) (r : PointsTo.Result) : Outcome Aliases := do
  let t ← accessTable p g
  return .ofTable r t t.loads.keys

end ProgramFlow.Interprocedural
