import ProgramFlow.Graph.ControlFlow
import ProgramFlow.Iteration
/-!
The supergraph of a program: the control-flow graphs of the methods that the entry methods reach
through given call edges, linked at their call sites.
-/
namespace ProgramFlow

/-- How control passes between statements of the whole program, with the variables that carry
values across a call. -/
inductive LinkKind
  | normal
  /-- Past a call, from the call site to where it returns. -/
  | callToReturn
  | call (callee : MethodId) (args params : List VarId)
  | ret (site : StmtId) (callee : MethodId) (returns : List VarId) (result : Option VarId)
  deriving DecidableEq, Repr

structure Link where
  kind : LinkKind
  source : StmtId
  target : StmtId
  deriving DecidableEq, Repr

/-- The positions of links, under their sources and under their targets. -/
structure LinkIndex (size : Nat) where
  out : Buckets StmtId (Fin size) := ∅
  into : Buckets StmtId (Fin size) := ∅

namespace LinkIndex

def add {size : Nat} (x : LinkIndex size) (position : Fin size) (l : Link) : LinkIndex size where
  out := x.out.push l.source position
  into := x.into.push l.target position

def ofLinks (links : List Link) : LinkIndex links.length :=
  (List.finRange links.length).foldl (fun x i => x.add i (links.get i)) {}

end LinkIndex

structure Supergraph where
  entryMethods : List MethodId
  /-- The graphs of the included methods, in the order of their discovery. -/
  graphs : List ControlFlowGraph
  links : List Link
  index : LinkIndex links.length
  /-- The call sites with known callees. -/
  callees : List (StmtId × List MethodId)

namespace Supergraph

variable (g : Supergraph)

def methods : List MethodId := g.graphs.map (·.method)

def nodes : List StmtId := g.graphs.flatMap (·.nodes)

def graph? (m : MethodId) : Option ControlFlowGraph := g.graphs.find? (·.method == m)

/-- The method that a node belongs to. -/
def methodOf? (n : StmtId) : Option MethodId := (g.graphs.find? (n ∈ ·.nodes)).map (·.method)

def outLinks (n : StmtId) : List Link := (g.index.out.get n).map g.links.get

def inLinks (n : StmtId) : List Link := (g.index.into.get n).map g.links.get

def succs (n : StmtId) : List StmtId := (g.outLinks n).map (·.target)

def calleesOf (site : StmtId) : List MethodId := (g.callees.lookup site).getD []

end Supergraph

namespace Program

variable (p : Program)

/-- The callees given for a statement, each once, in the order given. -/
def givenCallees (calls : List (StmtId × MethodId)) (site : StmtId) : List MethodId :=
  calls.foldl (fun ms (s, m) => if s = site ∧ m ∉ ms then ms ++ [m] else ms) []

/-- A breadth-first walk: the methods found so far and those still to look at. -/
structure MethodWalk where
  found : List MethodId
  queue : List MethodId

def walkStep (calls : List (StmtId × MethodId)) (w : MethodWalk) :
    Progress MethodWalk (Outcome (List MethodId)) :=
  match w.queue with
  | [] => .finished (.ok w.found)
  | m :: queue =>
    if m ∈ w.found then .running { w with queue }
    else
      match p.method m with
      | .error e => .finished (.error e)
      | .ok decl =>
        .running {
          found := w.found ++ [m]
          queue := queue ++ decl.body.flatMap (givenCallees calls) }

/-- The methods that the entries reach, breadth first. -/
def reachableMethods (entries : List MethodId) (calls : List (StmtId × MethodId)) :
    Outcome (List MethodId) :=
  match Progress.iterate (p.walkStep calls) (entries.length + calls.length + 2)
      { found := [], queue := entries } with
  | .finished r => r
  | .running _ => .error .notConverged

/-- The links that leave or bypass one node, with the return links of the calls it makes. -/
def linksAt (calls : List (StmtId × MethodId)) (g : ControlFlowGraph) (n : StmtId) :
    Outcome (List Link) := do
  match (← p.instr n).call? with
  | none => return (g.outEdges n).map fun e => ⟨.normal, e.source, e.target⟩
  | some call =>
    let past := (g.outEdges n).map fun e => Link.mk .callToReturn e.source e.target
    let through ← (givenCallees calls n).mapM fun callee => do
      let decl ← p.method callee
      let back := (g.succs n).map fun site =>
        Link.mk (.ret n callee decl.returns call.lhs) decl.exit site
      return Link.mk (.call callee call.args decl.params) n decl.entry :: back
    return past ++ through.flatten

def isInvoke (n : StmtId) : Outcome Bool := (·.isInvoke) <$> p.instr n

/-- The supergraph of what the entry methods reach through the call edges. -/
def supergraph (entries : List MethodId) (calls : List (StmtId × MethodId)) :
    Outcome Supergraph := do
  if entries.isEmpty then
    throw (.invalidProgram .noEntryMethods)
  let methods ← p.reachableMethods entries calls
  let graphs ← methods.mapM p.controlFlow
  let linksOf ← graphs.mapM fun g => g.nodes.mapM (p.linksAt calls g)
  let links := linksOf.flatten.flatten
  let sites ← (graphs.flatMap (·.nodes)).filterM fun n => do
    return (← p.isInvoke n) && !(givenCallees calls n).isEmpty
  return {
    entryMethods := entries
    graphs
    links
    index := .ofLinks links
    callees := sites.map fun n => (n, givenCallees calls n) }

end Program

end ProgramFlow
