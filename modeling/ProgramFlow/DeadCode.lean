import ProgramFlow.Constants.Propagation
import ProgramFlow.Dataflow.Solver
import ProgramFlow.Liveness
/-!
Dead code of a method: statements that no feasible path reaches, and reached assignments without
other effect whose variable is not live afterwards.
-/
namespace ProgramFlow

/-- The dead statements of a method in the order of its body. -/
structure DeadCodeReport where
  method : MethodId
  dead : List StmtId
  /-- The number of statements that are not reached. -/
  unreachable : Nat
  /-- The number of assignments that are reached and not needed. -/
  useless : Nat
  deriving DecidableEq, Repr

namespace DeadCodeReport

def contains (r : DeadCodeReport) (s : StmtId) : Bool := s ∈ r.dead

/-- The positions of the dead statements. -/
def positions (r : DeadCodeReport) (p : Program) : Outcome (List (Option Nat)) :=
  r.dead.mapM fun s => (·.position) <$> p.stmt s

end DeadCodeReport

/-- The edges out of a node that control may take when the facts hold before it. A decided branch
keeps one side, a decided switch its matching cases or else the default. -/
def feasibleEdges (i : Instr) (f : Fact) (edges : List Edge) : List Edge :=
  match i with
  | .branch cond _ =>
    match f.evaluate cond with
    | .constant c => edges.filter (·.kind = if c = 0 then .ifFalse else .ifTrue)
    | _ => edges
  | .switch scrutinee _ _ =>
    match f.get scrutinee with
    | .constant c =>
      match edges.filter (·.kind = .switchCase c) with
      | [] => edges.filter (·.kind = .switchDefault)
      | taken => taken
    | _ => edges
  | _ => edges

namespace Program

variable (p : Program)

/-- What dead code detection reads: a graph, the facts before its nodes and the variables live
after them. A node without an entry has the empty one. -/
structure Evidence where
  graph : ControlFlowGraph
  facts : SortedMap StmtId Fact
  live : SortedMap StmtId LiveSet

def Evidence.factAt (e : Evidence) (n : StmtId) : Fact := (e.facts.find? n).getD ∅

def Evidence.liveAt (e : Evidence) (n : StmtId) : LiveSet := (e.live.find? n).getD ∅

/-- The targets of the feasible edges out of a node. -/
def feasibleSuccs (e : Evidence) (n : StmtId) : Outcome (List StmtId) := do
  return (feasibleEdges (← p.instr n) (e.factAt n) (e.graph.outEdges n)).map (·.target)

/-- A breadth-first walk: the nodes reached so far and those still to look at. -/
structure NodeWalk where
  reached : List StmtId
  queue : List StmtId

def reachStep (e : Evidence) (w : NodeWalk) : Progress NodeWalk (Outcome (List StmtId)) :=
  match w.queue with
  | [] => .finished (.ok w.reached)
  | n :: queue =>
    match p.feasibleSuccs e n with
    | .error err => .finished (.error err)
    | .ok succs =>
      let new := succs.eraseDups.filter (· ∉ w.reached)
      .running { reached := w.reached ++ new, queue := queue ++ new }

/-- The nodes that feasible edges reach from the entry. -/
def reachedNodes (e : Evidence) : Outcome (List StmtId) :=
  match Progress.iterate (p.reachStep e) (e.graph.edges.length + 2)
      { reached := [e.graph.entry], queue := [e.graph.entry] } with
  | .finished r => r
  | .running _ => .error .notConverged

/-- A statement does nothing but assign a variable that is not live after it. -/
def isUseless (e : Evidence) (n : StmtId) : Outcome Bool := do
  return match (← p.instr n).pureAssigned? with
    | some v => v ∉ e.liveAt n
    | none => false

def detectDeadCode (e : Evidence) : Outcome DeadCodeReport := do
  let reached ← p.reachedNodes e
  let body := (← p.method e.graph.method).body
  let useless ← reached.filterM (p.isUseless e)
  return {
    method := e.graph.method
    dead := body.filter fun n => n ∉ reached ∨ n ∈ useless
    unreachable := (body.filter (· ∉ reached)).length
    useless := useless.length }

/-- Solves both problems for a method and detects its dead code. -/
def deadCode (schedule : Dataflow.Schedule) (m : MethodId) : Outcome DeadCodeReport := do
  let graph ← p.controlFlow m
  let constants ← p.constantPropagation.solve graph schedule
  let live ← p.liveVariables.solve graph schedule
  p.detectDeadCode {
    graph
    facts := constants.before .forward
    live := live.after .backward }

end Program

end ProgramFlow
