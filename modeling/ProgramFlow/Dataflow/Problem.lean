import ProgramFlow.Collection.SortedMap
import ProgramFlow.Collection.SortedSet
import ProgramFlow.Graph.ControlFlow
/-!
Dataflow problems over the control-flow graph of a method, and tables of facts for its nodes. Both
are written relative to the direction of the problem: a node merges the facts that arrive at it
and transfers the result to the fact that leaves it.
-/
namespace ProgramFlow.Dataflow

inductive Direction
  | forward
  | backward
  deriving DecidableEq, Repr

/-- A dataflow problem. The boundary node keeps the boundary fact as the fact that leaves it; all
other facts start as `start`. -/
structure Problem (φ : Type) where
  direction : Direction
  boundary : ControlFlowGraph → Outcome φ
  start : φ
  merge : φ → φ → φ
  transfer : StmtId → φ → Outcome φ
  /-- How often a fact that only rises can change. -/
  height : Nat

/-- The facts that arrive at and leave the nodes of a graph. -/
structure Table (φ : Type) where
  arriving : SortedMap StmtId φ
  leaving : SortedMap StmtId φ
  deriving DecidableEq

namespace Table

variable {φ : Type}

instance : EmptyCollection (Table φ) := ⟨⟨∅, ∅⟩⟩

/-- The facts that hold before each node in the order of execution. -/
def before (d : Direction) (t : Table φ) : SortedMap StmtId φ :=
  match d with
  | .forward => t.arriving
  | .backward => t.leaving

/-- The facts that hold after each node in the order of execution. -/
def after (d : Direction) (t : Table φ) : SortedMap StmtId φ :=
  match d with
  | .forward => t.leaving
  | .backward => t.arriving

/-- The table with given facts before and after the nodes. -/
def ofFacts (d : Direction) (before after : SortedMap StmtId φ) : Table φ :=
  match d with
  | .forward => ⟨before, after⟩
  | .backward => ⟨after, before⟩

def setArriving (t : Table φ) (n : StmtId) (x : φ) : Table φ :=
  { t with arriving := t.arriving.insert n x }

def setLeaving (t : Table φ) (n : StmtId) (x : φ) : Table φ :=
  { t with leaving := t.leaving.insert n x }

/-- The nodes with a fact after them. -/
def nodes (d : Direction) (t : Table φ) : List StmtId := (t.after d).keys

def size (d : Direction) (t : Table φ) : Nat := (t.after d).size

end Table

namespace Direction

/-- The node where the facts come from. -/
def boundaryNode (d : Direction) (g : ControlFlowGraph) : StmtId :=
  match d with
  | .forward => g.entry
  | .backward => g.exit

/-- The nodes whose leaving facts arrive at `n`. -/
def sources (d : Direction) (g : ControlFlowGraph) (n : StmtId) : List StmtId :=
  match d with
  | .forward => g.preds n
  | .backward => g.succs n

/-- The nodes at which the fact that leaves `n` arrives. -/
def sinks (d : Direction) (g : ControlFlowGraph) (n : StmtId) : List StmtId :=
  match d with
  | .forward => g.succs n
  | .backward => g.preds n

/-- The nodes along the direction, without the boundary node. -/
def order (d : Direction) (g : ControlFlowGraph) : List StmtId :=
  match d with
  | .forward => g.nodes.filter (· ≠ g.entry)
  | .backward => g.nodes.reverse.filter (· ≠ g.exit)

theorem mem_order {d : Direction} {g : ControlFlowGraph} {n : StmtId} :
    n ∈ d.order g ↔ n ∈ g.nodes ∧ n ≠ d.boundaryNode g := by
  cases d <;> simp [order, boundaryNode]

end Direction

namespace Problem

variable {φ : Type} (P : Problem φ) (g : ControlFlowGraph)

/-- Every node starts with the start fact, the boundary node leaves with the boundary fact. -/
def initial : Outcome (Table φ) := do
  let all := SortedMap.ofList (g.nodes.map fun n => (n, P.start))
  let fact ← P.boundary g
  return { arriving := all, leaving := all.insert (P.direction.boundaryNode g) fact }

/-- The facts that arrive at a node, merged; a source without a fact is passed over. -/
def arrivingAt (t : Table φ) (n : StmtId) : φ :=
  (P.direction.sources g n).foldl
    (fun acc s =>
      match t.leaving.find? s with
      | some x => P.merge acc x
      | none => acc)
    P.start

/-- Recomputes the two facts of a node, and says whether the leaving one changed. -/
def visit [DecidableEq φ] (t : Table φ) (n : StmtId) : Outcome (Change (Table φ)) := do
  let input := P.arrivingAt g t n
  match t.leaving.find? n with
  | none => throw (.invalidProgram (.notANode n g.method))
  | some old =>
    let new ← P.transfer n input
    return ⟨decide (new ≠ old), (t.setArriving n input).setLeaving n new⟩

end Problem

end ProgramFlow.Dataflow
