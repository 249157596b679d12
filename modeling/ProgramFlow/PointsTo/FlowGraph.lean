import ProgramFlow.Collection.Roster
/-!
Pointer flow graphs: an edge says that the target points to whatever the source points to. Edges
are kept once; those of one source are in the order of their arrival.
-/
namespace ProgramFlow.PointsTo

/-- The targets of each pointer; every end of an edge is a key. -/
structure FlowGraph where
  targets : Std.TreeMap PointerId (OrderedSet PointerId) := ∅

namespace FlowGraph

variable (g : FlowGraph)

def targetsOf (source : PointerId) : OrderedSet PointerId := g.targets.getD source ∅

def succs (source : PointerId) : List PointerId := (g.targetsOf source).toList

def hasEdge (source target : PointerId) : Bool := (g.targetsOf source).contains target

def addEdge (source target : PointerId) : FlowGraph :=
  ⟨(g.targets.insert source ((g.targetsOf source).add target)).insertIfNew target ∅⟩

/-- The number of pointers that some edge ends in or starts from. -/
def nodeCount : Nat := g.targets.size

def edgeCount : Nat := g.targets.foldl (fun n _ targets => n + targets.size) 0

theorem targetsOf_addEdge (s t x : PointerId) :
    (g.addEdge s t).targetsOf x = if x = s then (g.targetsOf s).add t else g.targetsOf x := by
  simp only [addEdge, targetsOf, Std.TreeMap.getD_insertIfNew, Std.TreeMap.getD_insert,
    Std.TreeMap.mem_insert]
  grind [Std.TreeMap.getD_eq_fallback]

theorem hasEdge_iff {s t : PointerId} : g.hasEdge s t ↔ t ∈ g.succs s := by
  simp [hasEdge, succs, Roster.contains_iff]

@[simp] theorem mem_succs_addEdge {s t x y : PointerId} :
    y ∈ (g.addEdge s t).succs x ↔ (x = s ∧ y = t) ∨ y ∈ g.succs x := by
  rw [succs, targetsOf_addEdge]
  split
  · next h => simp [h, OrderedSet.mem_add, succs]
  · next h => simp [h, succs]

end FlowGraph

end ProgramFlow.PointsTo
