import ProgramFlow.Config.Settings
import ProgramFlow.DeadCode
import ProgramFlow.Interprocedural.Constants
import ProgramFlow.Pipeline.Session
/-!
The whole-program run: points-to analysis first, then the analyses of each method that it reaches,
the supergraph over the calls that it found, and constant propagation through calls.
-/
namespace ProgramFlow.Pipeline

open Dataflow (Table)

inductive Published
  | pointsTo (result : PointsTo.Result)
  | cfg (graph : ControlFlowGraph)
  | constants (table : Table Fact)
  | liveness (table : Table LiveSet)
  | deadCode (report : DeadCodeReport)
  | supergraph (graph : Supergraph)

namespace Published

def pointsTo? : Published → Option PointsTo.Result
  | pointsTo r => some r
  | _ => none

def cfg? : Published → Option ControlFlowGraph
  | cfg g => some g
  | _ => none

def constants? : Published → Option (Table Fact)
  | constants t => some t
  | _ => none

def liveness? : Published → Option (Table LiveSet)
  | liveness t => some t
  | _ => none

def deadCode? : Published → Option DeadCodeReport
  | deadCode r => some r
  | _ => none

def supergraph? : Published → Option Supergraph
  | supergraph g => some g
  | _ => none

end Published

/-- What a run did. -/
structure Summary where
  preset : Preset
  /-- The sensitivity of the points-to analysis. -/
  context : String
  reachableMethods : Nat
  callEdges : Nat
  /-- The number of methods that were analysed on their own. -/
  methodsAnalyzed : Nat
  deadStatements : Nat
  nodes : Nat
  links : Nat
  interConstants : Bool
  aliasAware : Bool
  deriving DecidableEq, Repr

/-- What the analyses of one method found. -/
structure MethodResults where
  graph : ControlFlowGraph
  constants : Table Fact
  live : Table LiveSet
  /-- The dead code, if it was asked for. -/
  report : Option DeadCodeReport

/-- Solves the problems of one method; an abstract method has none. -/
def analyzeMethod (settings : Settings) (p : Program) (m : MethodId) :
    Outcome (Option MethodResults) := do
  if (← p.method m).isAbstract then
    return none
  let graph ← p.controlFlow m
  let constants ← p.constantPropagation.solve graph settings.schedule
  let live ← p.liveVariables.solve graph settings.schedule
  let evidence : Program.Evidence := {
    graph
    facts := constants.before .forward
    live := live.after .backward }
  let report ← if settings.deadCode then some <$> p.detectDeadCode evidence else pure none
  return some { graph, constants, live, report }

/-- The results of a method under their keys, in the order of publication. -/
def MethodResults.keyed (r : MethodResults) : List (AnalysisId × Published) :=
  let m := r.graph.method
  (r.report.toList.map fun report => (.deadCode m, .deadCode report)) ++
    [(.cfg m, .cfg r.graph), (.constants m, .constants r.constants),
      (.liveness m, .liveness r.live)]

def MethodResults.deadCount (r : MethodResults) : Nat :=
  r.report.elim 0 (·.dead.length)

/-- Where a run stands: what it has published and counted. -/
structure Progress where
  session : Session Published
  methodsAnalyzed : Nat := 0
  deadStatements : Nat := 0

/-- Analyses a method and publishes what is found. -/
def Progress.visit (settings : Settings) (p : Program) (x : Progress) (m : MethodId) :
    Outcome Progress := do
  match ← analyzeMethod settings p m with
  | none => return x
  | some r =>
    return {
      session := ← x.session.publishAll r.keyed
      methodsAnalyzed := x.methodsAnalyzed + 1
      deadStatements := x.deadStatements + r.deadCount }

/-- Constant propagation through calls, with the aliases that it used. -/
def analyzeCalls (settings : Settings) (p : Program) (pta : Option PointsTo.Result)
    (g : Supergraph) : Outcome (Option Interprocedural.Aliases × Table Fact) := do
  let aliases ← Interprocedural.aliasesFor p g settings.inter.aliasAware pta
  return (aliases, ← (Interprocedural.constantPropagation p aliases).solve g)

/-- Publishes constant propagation through calls if it is enabled, and says whether it had aliases.
The points-to result is read from the session. -/
def publishCalls (settings : Settings) (p : Program) (g : Supergraph)
    (session : Session Published) : Outcome (Session Published × Bool) :=
  if settings.inter.enabled then do
    let (aliases, facts) ←
      analyzeCalls settings p (session.get? Published.pointsTo? .pointsTo) g
    return (← session.publish .interConstants (.constants facts), aliases.isSome)
  else return (session, false)

/-- Each stage publishes its results before the next one starts. -/
def run (settings : Settings) (p : Program) : Outcome (Session Published × Summary) := do
  settings.validate.mapError .config
  let pta ← PointsTo.analyze p settings.sensitivity
  let session ← Session.empty.publish .pointsTo (.pointsTo pta)
  let reachable := pta.reachableMethods.toList
  let progress ← reachable.foldlM (Progress.visit settings p) { session }
  let graph ← p.supergraph pta.entryMethods (pta.calls.toList.map fun c => (c.site, c.callee))
  let session ← progress.session.publish .supergraph (.supergraph graph)
  let (session, aliasAware) ← publishCalls settings p graph session
  return (session, {
    preset := settings.preset
    context := pta.sensitivity.text
    reachableMethods := reachable.length
    callEdges := pta.statistics.callEdges
    methodsAnalyzed := progress.methodsAnalyzed
    deadStatements := progress.deadStatements
    nodes := graph.nodes.length
    links := graph.links.length
    interConstants := settings.inter.enabled
    aliasAware })

end ProgramFlow.Pipeline
