import ProgramFlow.Collection.Buckets
import ProgramFlow.Program.Basic
/-!
Control-flow graphs: the statements of one method, joined by edges that say how control passes. A
graph is filled edge by edge and keeps each edge twice, under its source and under its target.
-/
namespace ProgramFlow

inductive EdgeKind
  | entry
  | fallThrough
  | goto
  | ifTrue
  | ifFalse
  | switchCase (value : Int32)
  | switchDefault
  | ret
  deriving DecidableEq, Repr

structure Edge where
  kind : EdgeKind
  source : StmtId
  target : StmtId
  deriving DecidableEq, Repr

structure ControlFlowGraph where
  method : MethodId
  entry : StmtId
  exit : StmtId
  /-- The entry, the body in order, the exit. -/
  nodes : List StmtId
  /-- The edges under their sources. -/
  out : Buckets StmtId Edge := ∅
  /-- The edges under their targets. -/
  into : Buckets StmtId Edge := ∅
  deriving DecidableEq

namespace ControlFlowGraph

variable (g : ControlFlowGraph)

def addEdge (e : Edge) : ControlFlowGraph :=
  { g with out := g.out.push e.source e, into := g.into.push e.target e }

def addEdges (es : List Edge) : ControlFlowGraph := es.foldl addEdge g

def outEdges (n : StmtId) : List Edge := g.out.get n

def inEdges (n : StmtId) : List Edge := g.into.get n

/-- All edges, node by node. -/
def edges : List Edge := g.out.items

def succs (n : StmtId) : List StmtId := (g.outEdges n).map (·.target)

def preds (n : StmtId) : List StmtId := (g.inEdges n).map (·.source)

end ControlFlowGraph

namespace MethodDecl

variable (m : MethodDecl)

def jumpTarget (target : Nat) : Outcome StmtId :=
  match m.stmtAt? target with
  | some s => .ok s
  | none => .error (.invalidProgram (.danglingTarget target m.name))

/-- Where control goes from the instruction at a position of the body, and how. -/
def exits (position : Nat) (instr : Instr) : Outcome (List (EdgeKind × StmtId)) :=
  match instr with
  | .goto target => do
    return [(.goto, ← m.jumpTarget target)]
  | .branch _ target => do
    return [(.ifTrue, ← m.jumpTarget target), (.ifFalse, (m.stmtAt? (position + 1)).getD m.exit)]
  | .switch _ cases otherwise => do
    let taken ← cases.mapM fun (value, target) => do
      return (EdgeKind.switchCase value, ← m.jumpTarget target)
    return taken ++ [(.switchDefault, ← m.jumpTarget otherwise)]
  | .ret _ => .ok [(.ret, m.exit)]
  | _ =>
    match m.stmtAt? (position + 1) with
    | some next => .ok [(.fallThrough, next)]
    | none => .ok [(.ret, m.exit)]

end MethodDecl

namespace Program

variable (p : Program)

/-- The edges that leave the statement at a position of the body. -/
def edgesAt (m : MethodDecl) (position : Nat) : Outcome (List Edge) := do
  let source := m.stmtAt position
  let exits ← m.exits position (← p.instr source)
  return exits.map fun (kind, target) => { kind, source, target }

def controlFlow (id : MethodId) : Outcome ControlFlowGraph := do
  let m ← p.method id
  let bare : ControlFlowGraph := {
    method := id
    entry := m.entry
    exit := m.exit
    nodes := m.entry :: m.body ++ [m.exit] }
  let edges ← (List.range m.length).mapM (p.edgesAt m)
  return bare.addEdges (⟨.entry, m.entry, (m.stmtAt? 0).getD m.exit⟩ :: edges.flatten)

end Program

end ProgramFlow
