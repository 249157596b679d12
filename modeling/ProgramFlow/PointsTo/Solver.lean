import ProgramFlow.Collection.Queue
import ProgramFlow.Iteration
import ProgramFlow.PointsTo.CallGraph
import ProgramFlow.PointsTo.Elements
import ProgramFlow.PointsTo.FlowGraph
import ProgramFlow.PointsTo.Sensitivity
import ProgramFlow.Program.Dispatch
/-!
Inclusion-based points-to analysis that finds the call graph on the way. Objects wait on a work
list until they are added to the set of a pointer; what is new then flows on, and on a variable it
opens the field, element and call statements based there. A failing statement keeps what was done
before it.
-/
namespace ProgramFlow.PointsTo

structure State where
  elements : Elements := .initial
  heap : Heap := .empty
  calls : CallGraph := {}
  flow : FlowGraph := {}
  /-- Objects on their way to a pointer. -/
  pending : Queue (PointerId × ObjSet) := ∅
  started : Bool := false
  /-- The number of entries taken from the work list. -/
  propagations : Nat := 0
  /-- The number of calls for which no method was found. -/
  unresolved : Nat := 0

namespace State

def initial : State := {}

def send (s : State) (target : PointerId) (objs : ObjSet) : State :=
  { s with pending := s.pending.push (target, objs) }

/-- Adds a flow edge; a new one sends what its source points to. -/
def addFlow (s : State) (source target : PointerId) : State :=
  if s.flow.hasEdge source target then s
  else
    let objs := s.elements.objectsOf source
    let s := { s with flow := s.flow.addEdge source target }
    if objs.isEmpty then s else s.send target objs

/-- Adds objects to a pointer and sends the new ones along its flow edges. -/
def absorb (s : State) (pointer : PointerId) (objs : ObjSet) : ObjSet × State :=
  let known := s.elements.objectsOf pointer
  let new := objs.difference known
  if new.isEmpty then (new, s)
  else
    (new, { s with
      elements := s.elements.setObjects pointer (known.union new)
      pending := s.pending.pushAll ((s.flow.succs pointer).map (·, new)) })

/-- The start has been made and nothing is on its way. -/
def isDone (s : State) : Bool := s.started && s.pending.isEmpty

end State

/-- Computations on the state that keep it when they fail. -/
abbrev SolverM := ExceptT AnalysisError (StateM State)

namespace SolverM

def ofElements {α : Type} (f : Elements → α × Elements) : SolverM α :=
  modifyGet fun s =>
    let (a, elements) := f s.elements
    (a, { s with elements })

def contextId (c : Context) : SolverM ContextId := ofElements (·.context c)

def objectId (o : ObjClone) : SolverM ObjCloneId := ofElements (·.object o)

def methodId (m : MethodClone) : SolverM MethodCloneId := ofElements (·.method m)

def callSiteId (c : CallClone) : SolverM CallCloneId := ofElements (·.callSite c)

def pointerId (x : Pointer) : SolverM PointerId := ofElements (·.pointer x)

def allocate (o : Obj) : SolverM ObjId :=
  modifyGet fun s =>
    let (id, heap) := s.heap.ensure o
    (id, { s with heap })

def context (id : ContextId) : SolverM Context := do (← get).elements.contexts.row id

def object (id : ObjCloneId) : SolverM ObjClone := do (← get).elements.objects.row id

def method (id : MethodCloneId) : SolverM MethodClone := do (← get).elements.methods.row id

def obj (id : ObjId) : SolverM Obj := do (← get).heap.row id

/-- A flow edge between two pointers, which are numbered in this order. -/
def flow (source target : Pointer) : SolverM Unit := do
  let s ← pointerId source
  let t ← pointerId target
  modify (·.addFlow s t)

def send (target : PointerId) (objs : ObjSet) : SolverM Unit := modify (·.send target objs)

def countUnresolved : SolverM Unit :=
  modify fun s => { s with unresolved := s.unresolved + 1 }

/-- Repeats a computation that answers whether to go on. -/
def repeatWhile (rounds : Nat) (body : SolverM Bool) : SolverM Unit :=
  ExceptT.mk fun s =>
    let step (s : State) : Progress State (Except AnalysisError Unit × State) :=
      match body.run s with
      | (.ok true, s) => .running s
      | (.ok false, s) => .finished (.ok (), s)
      | (.error e, s) => .finished (.error e, s)
    match Progress.iterate step rounds s with
    | .finished r => r
    | .running s => (.error .notConverged, s)

end SolverM

/-- More doublings than the analysis of the program needs. -/
def rounds (p : Program) (σ : Sensitivity) : Nat :=
  16 * (σ.depth + 2) *
    (p.classes.size + p.fields.size + p.methods.size + p.vars.size + p.stmts.size + 2)

section

open SolverM

variable (p : Program) (σ : Sensitivity)

/-- Arguments flow to parameters and returned values to the result. -/
def link (callerContext : ContextId) (call : Call) (calleeContext : ContextId)
    (callee : MethodDecl) : SolverM Unit := do
  for (arg, param) in call.args.zip callee.params do
    flow (.var callerContext arg) (.var calleeContext param)
  if let some lhs := call.lhs then
    let target ← pointerId (.var callerContext lhs)
    for v in callee.returns do
      let source ← pointerId (.var calleeContext v)
      modify (·.addFlow source target)

/-- Adds a call edge. A new one links the two methods; the answer is then the called clone. -/
def addCall (callerContext : ContextId) (caller : MethodCloneId) (site : StmtId) (call : Call)
    (calleeContext : ContextId) (callee : MethodId) : SolverM (Option MethodCloneId) := do
  let siteId ← callSiteId ⟨callerContext, site, caller⟩
  let calleeId ← methodId ⟨calleeContext, callee⟩
  let edge : CallEdge := ⟨call.kind, siteId, calleeId⟩
  if (← get).calls.hasEdge edge then
    return none
  modify fun s => { s with calls := s.calls.addEdge edge }
  link callerContext call calleeContext (← p.method callee)
  return some calleeId

/-- What a statement does as soon as its method is reachable; a static call answers the clone that
it reaches by a new edge. -/
def enterStmt (self : MethodCloneId) (clone : MethodClone) (owner : ClassId) (site : StmtId) :
    SolverM (Option MethodCloneId) := do
  let var (v : VarId) : Pointer := .var clone.context v
  match ← p.instr site with
  | .new lhs ty =>
    let obj ← allocate ⟨site, ty, clone.method, owner⟩
    let heapContext ← contextId (σ.heapContext (← context clone.context))
    let object ← objectId ⟨heapContext, obj⟩
    send (← pointerId (var lhs)) (.singleton object)
    return none
  | .copy lhs rhs =>
    flow (var rhs) (var lhs)
    return none
  | .cast lhs operand _ =>
    flow (var operand) (var lhs)
    return none
  | .loadField lhs (.static f) =>
    flow (.staticField f) (var lhs)
    return none
  | .storeField (.static f) rhs =>
    flow (var rhs) (.staticField f)
    return none
  | .invoke call =>
    if call.kind ≠ .static then
      return none
    match ← p.resolve none call with
    | none =>
      countUnresolved
      return none
    | some callee =>
      let calleeContext ← contextId (σ.staticContext (← context clone.context) site)
      addCall p clone.context self site call calleeContext callee
  | .unknown tag (some v) _ =>
    if (← p.var v).ty.isReference then
      throw (.unsupportedConstruct .pointsTo site tag)
    return none
  | _ => return none

/-- Marks a method clone reachable; on its first time the answer is the clones that its static
calls reach by new edges. -/
def enterMethod (self : MethodCloneId) : SolverM (List MethodCloneId) := do
  if (← get).calls.isReachable self then
    return []
  modify fun s => { s with calls := s.calls.addReachable self }
  let clone ← method self
  let decl ← p.method clone.method
  decl.body.filterMapM (enterStmt p σ self clone decl.owner)

/-- Takes the latest clone from a stack and puts those that it reaches on it. -/
def reachStep : List MethodCloneId × State →
    Progress (List MethodCloneId × State) (Except AnalysisError Unit × State)
  | ([], s) => .finished (.ok (), s)
  | (m :: stack, s) =>
    match (enterMethod p σ m).run s with
    | (.ok callees, s) => .running (callees.reverse ++ stack, s)
    | (.error e, s) => .finished (.error e, s)

/-- Makes a method clone reachable, with all that it reaches through static calls. -/
def reach (m : MethodCloneId) : SolverM Unit :=
  ExceptT.mk fun s =>
    match Progress.iterate (reachStep p σ) (rounds p σ) ([m], s) with
    | .finished r => r
    | .running (_, s) => (.error .notConverged, s)

/-- Makes the main method reachable in the empty context. -/
def start : SolverM Unit := do
  if (← get).started then
    return
  let main ← p.mainMethod
  let context ← contextId .empty
  let m ← methodId ⟨context, main⟩
  modify fun s => { s with calls := s.calls.addEntry m }
  reach p σ m
  modify fun s => { s with started := true }

/-- Opens the field and element accesses based on a variable for one of its objects. -/
def openAccesses (context : ContextId) (base : VarId) (obj : ObjCloneId) : SolverM Unit := do
  let _ ← p.var base
  for (_, f, rhs) in p.fieldStores base do
    flow (.var context rhs) (.instanceField obj f)
  for (_, lhs, f) in p.fieldLoads base do
    flow (.instanceField obj f) (.var context lhs)
  for (_, rhs) in p.arrayStores base do
    flow (.var context rhs) (.arrayElement obj)
  for (_, lhs) in p.arrayLoads base do
    flow (.arrayElement obj) (.var context lhs)

/-- Sends the receiver of a call to the variable that holds it in the called method. -/
def passReceiver (calleeContext : ContextId) (callee : MethodDecl) (receiver : ObjCloneId) :
    SolverM Unit := do
  if let some this := callee.receiver then
    send (← pointerId (.var calleeContext this)) (.singleton receiver)

/-- Dispatches a call on a variable for one of its objects. -/
def openCall (context : ContextId) (receiver : ObjCloneId) (site : StmtId) (call : Call) :
    SolverM Unit := do
  let clone ← object receiver
  let obj ← SolverM.obj clone.obj
  match ← p.resolve obj.class? call with
  | none => countUnresolved
  | some callee =>
    let calleeContext ← contextId
      (σ.instanceContext (← SolverM.context context) site (← SolverM.context clone.context)
        clone.obj obj)
    passReceiver calleeContext (← p.method callee) receiver
    let caller ← methodId ⟨context, (← p.stmt site).method⟩
    if let some m ← addCall p context caller site call calleeContext callee then
      reach p σ m

/-- Takes one entry from the work list; the answer is false if there is none. -/
def step : SolverM Bool := do
  match (← get).pending.pop? with
  | none => return false
  | some ((pointer, objs), pending) =>
    modify fun s => { s with pending, propagations := s.propagations + 1 }
    let new ← modifyGet (·.absorb pointer objs)
    if new.isEmpty then
      return true
    match ← (← get).elements.pointers.name pointer with
    | .var context v =>
      for obj in new.toList do
        openAccesses p context v obj
        for (site, call) in p.callsOn v do
          openCall p σ context obj site call
      return true
    | _ => return true

/-- Starts and takes steps until nothing is on its way. -/
def solve : SolverM Unit := do
  start p σ
  repeatWhile (rounds p σ) (step p σ)

end

end ProgramFlow.PointsTo
