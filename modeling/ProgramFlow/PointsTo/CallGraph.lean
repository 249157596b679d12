import ProgramFlow.Collection.Roster
import ProgramFlow.Syntax.Instr
/-!
Call graphs over method clones. Methods and edges are kept once, in the order of their discovery.
-/
namespace ProgramFlow.PointsTo

structure CallEdge where
  kind : CallKind
  site : CallCloneId
  callee : MethodCloneId
  deriving DecidableEq, Repr

def callKindCode : CallKind → Nat
  | .static => 0
  | .special => 1
  | .virtual => 2
  | .interface => 3

instance : Coded CallEdge where
  code e := [callKindCode e.kind, e.site.index, e.callee.index]
  code_injective {a b} h := by
    obtain ⟨k, ⟨_⟩, ⟨_⟩⟩ := a
    obtain ⟨l, ⟨_⟩, ⟨_⟩⟩ := b
    cases k <;> cases l <;> simp_all [callKindCode]

structure CallGraph where
  entries : OrderedSet MethodCloneId := ∅
  reachable : OrderedSet MethodCloneId := ∅
  edges : OrderedSet CallEdge := ∅

namespace CallGraph

variable (g : CallGraph)

def addEntry (m : MethodCloneId) : CallGraph := { g with entries := g.entries.add m }

def addReachable (m : MethodCloneId) : CallGraph := { g with reachable := g.reachable.add m }

def addEdge (e : CallEdge) : CallGraph := { g with edges := g.edges.add e }

def isReachable (m : MethodCloneId) : Bool := g.reachable.contains m

def hasEdge (e : CallEdge) : Bool := g.edges.contains e

def calleesOf (site : CallCloneId) : List MethodCloneId :=
  (g.edges.toList.filter (·.site = site)).map (·.callee)

end CallGraph

end ProgramFlow.PointsTo
