import ProgramFlow.Dataflow.Solver
import ProgramFlow.Graph.Supergraph
/-!
Dataflow problems over the supergraph of a program, and their solution with a work list. Facts are
transferred along links as well as at nodes, and a node may read the facts that arrive at others.
-/
namespace ProgramFlow.Interprocedural

open Dataflow (Direction Table State Counters enqueue)

/-- A dataflow problem over a supergraph. The entry node of an entry method keeps the boundary
fact of the method as the fact that leaves it. -/
structure Problem (φ : Type) where
  direction : Direction
  boundary : MethodId → Outcome φ
  start : φ
  merge : φ → φ → φ
  transferLink : Link → φ → Outcome φ
  /-- The fact that leaves a node, given all arriving facts and the node's own. -/
  transferNode : SortedMap StmtId φ → StmtId → φ → Outcome φ
  /-- The nodes that read the fact arriving at a node. -/
  readers : StmtId → List StmtId
  /-- How often a fact that only rises can change. -/
  height : Nat

namespace Problem

variable {φ : Type} (P : Problem φ) (g : Supergraph)

/-- The entry nodes of the entry methods. -/
def boundaryNodes : List StmtId := (g.entryMethods.filterMap g.graph?).map (·.entry)

def initial : Outcome (Table φ) := do
  let all := SortedMap.ofList (g.nodes.map fun n => (n, P.start))
  let graphs := g.entryMethods.filterMap g.graph?
  let leaving ← graphs.foldlM (fun m c => return m.insert c.entry (← P.boundary c.method)) all
  return { arriving := all, leaving }

/-- The facts that arrive at a node along its links, merged. -/
def arrivingAt (t : Table φ) (n : StmtId) : Outcome φ :=
  (g.inLinks n).foldlM
    (fun acc link =>
      match t.leaving.find? link.source with
      | some x => P.merge acc <$> P.transferLink link x
      | none => .ok acc)
    P.start

variable [DecidableEq φ]

/-- Recomputes the two facts of a node, and says whether the leaving one changed. -/
def visit (t : Table φ) (n : StmtId) : Outcome (Change (Table φ)) := do
  let input ← P.arrivingAt g t n
  let t := t.setArriving n input
  let new ← P.transferNode t.arriving n input
  let old := (t.leaving.find? n).getD P.start
  return ⟨decide (new ≠ old), t.setLeaving n new⟩

/-- Takes one node from the work list; if it changed, its successors and its readers follow. -/
def workStep (boundary : List StmtId) (s : State φ) : Progress (State φ) (Outcome (State φ)) :=
  match s.queue with
  | [] => .finished (.ok s)
  | n :: queue =>
    match P.visit g s.table n with
    | .error e => .finished (.error e)
    | .ok ⟨changed, table⟩ =>
      let next := (g.succs n ++ P.readers n).filter (· ∉ boundary)
      .running {
        table
        queue := if changed then enqueue queue next else queue
        counters := {
          iterations := s.counters.iterations + 1
          transfers := s.counters.transfers + 1
          changes := s.counters.changes + if changed then 1 else 0 } }

/-- Facts that only rise settle within two to this number of steps. -/
def rounds : Nat := 2 * g.nodes.length + g.links.length + P.height + 3

/-- The solution of a forward problem and the work it took. -/
def solveCounting : Outcome (Table φ × Counters) := do
  if P.direction = .backward then
    throw .backwardUnsupported
  let table ← P.initial g
  let boundary := boundaryNodes g
  let queue := enqueue [] (g.nodes.filter (· ∉ boundary))
  match Progress.iterate (P.workStep g boundary) (P.rounds g) { table, queue } with
  | .finished r => return ((← r).table, (← r).counters)
  | .running _ => throw .notConverged

def solve : Outcome (Table φ) := Prod.fst <$> P.solveCounting g

end Problem

end ProgramFlow.Interprocedural
