import ProgramFlow.Program.Basic
/-!
Putting a program together: classes, fields and methods are declared one by one, a method is open
while its variables and instructions are added, and `build` checks the finished tables.
-/
namespace ProgramFlow

structure MethodDraft where
  decl : MethodDecl
  finished : Bool
  deriving Repr

structure Builder where
  classes : Array ClassDecl := #[]
  fields : Array FieldDecl := #[]
  methods : Array MethodDraft := #[]
  vars : Array VarDecl := #[]
  stmts : Array Stmt := #[]
  main : Option MethodId := none
  deriving Repr

/-- A builder with one method open. -/
structure MethodBuilder where
  outer : Builder
  id : MethodId
  code : Array Instr := #[]
  deriving Repr

namespace Builder

def empty : Builder := {}

def addClass (b : Builder) (name : String) (superclass : Option ClassId) : ClassId × Builder :=
  let decl : ClassDecl := { name, superclass, isInterface := false, methods := [] }
  (⟨b.classes.size⟩, { b with classes := b.classes.push decl })

def addInterface (b : Builder) (name : String) : ClassId × Builder :=
  let decl : ClassDecl := { name, superclass := none, isInterface := true, methods := [] }
  (⟨b.classes.size⟩, { b with classes := b.classes.push decl })

def addField (b : Builder) (owner : ClassId) (name : String) (ty : Ty) (isStatic : Bool) :
    FieldId × Builder :=
  (⟨b.fields.size⟩, { b with fields := b.fields.push { name, owner, ty, isStatic } })

def addVar (b : Builder) (method : MethodId) (name : String) (ty : Ty) : VarId × Builder :=
  (⟨b.vars.size⟩, { b with vars := b.vars.push { name, ty, method } })

def setMain (b : Builder) (m : MethodId) : Builder := { b with main := some m }

/-- Applies `f` to the declaration of a method. -/
def updateMethod (b : Builder) (m : MethodId) (f : MethodDraft → MethodDraft) : Builder :=
  { b with methods := b.methods.modify m.index f }

/-- Declares a method; an instance method gets a variable for its receiver. -/
def declare (b : Builder) (owner : ClassId) (name : String) (isStatic isAbstract : Bool) :
    Outcome (MethodId × Builder) :=
  if owner.index < b.classes.size then
    let id : MethodId := ⟨b.methods.size⟩
    let receiver : Option VarId := if isStatic then none else some ⟨b.vars.size⟩
    let decl : MethodDecl :=
      { name, owner, isStatic, isAbstract, params := [], receiver, returns := [],
        first := 0, length := 0 }
    let b' : Builder :=
      { b with
        classes := b.classes.modify owner.index (·.declare name id)
        methods := b.methods.push { decl, finished := false } }
    .ok (id, if isStatic then b' else (b'.addVar id "this" (.object owner)).2)
  else
    .error (.undeclared .classDecl owner.index)

/-- The variables that the instructions return, each once, in order. -/
def returnsOf (code : List Instr) : List VarId :=
  code.foldl
    (fun vs i =>
      match i with
      | .ret (some v) => if v ∈ vs then vs else vs ++ [v]
      | _ => vs)
    []

/-- Appends the statements of a method and marks it finished. -/
def finish (b : Builder) (m : MethodId) (code : List Instr) : Builder :=
  let body : List Stmt := code.zipIdx.map fun (instr, i) => ⟨m, some i, instr⟩
  let b' := b.updateMethod m fun draft =>
    { decl :=
        { draft.decl with
          first := b.stmts.size, length := code.length, returns := returnsOf code }
      finished := true }
  { b' with stmts := b.stmts ++ (⟨m, none, .entry⟩ :: body ++ [⟨m, none, .exit⟩]) }

def addAbstractMethod (b : Builder) (owner : ClassId) (name : String) :
    Outcome (MethodId × Builder) := do
  let (id, b) ← b.declare owner name false true
  return (id, b.finish id [])

def openMethod (b : Builder) (owner : ClassId) (name : String) (isStatic : Bool) :
    Outcome MethodBuilder := do
  let (id, b) ← b.declare owner name isStatic false
  return { outer := b, id }

/-- The variable whose objects decide what an instruction does: the base of a heap access or the
receiver of a call. -/
def anchor? : Instr → Option VarId
  | .loadField _ access | .storeField access _ => access.base?
  | .loadArray _ access | .storeArray access _ => some access.base
  | .invoke call => call.receiver
  | _ => none

/-- A branch compares, and no target lies outside the body. -/
def checkInstr (name : String) (length position : Nat) (instr : Instr) : Outcome Unit := do
  match instr with
  | .branch cond _ =>
    if !cond.op.isCondition then
      throw (.invalidProgram (.notACondition cond.op name position))
  | _ => pure ()
  match instr.targets.find? (length ≤ ·) with
  | some t => throw (.invalidProgram (.targetOutOfBounds t name length))
  | none => pure ()

def checkMethod (b : Builder) (draft : MethodDraft) : Outcome Unit := do
  let m := draft.decl
  if !draft.finished then
    throw (.invalidProgram (.unfinishedMethod m.name))
  (List.range m.length).forM fun i => do
    let stmt ← fetch b.stmts (m.stmtAt i)
    checkInstr m.name m.length i stmt.instr

def checkAnchor (b : Builder) (stmt : Stmt) : Outcome Unit :=
  match anchor? stmt.instr with
  | none => .ok ()
  | some v => (fun _ => ()) <$> fetch b.vars v

/-- The finished program, if every method is finished, every branch is in order and every heap
access and receiver has a declared base. -/
def build (b : Builder) : Outcome Program := do
  b.methods.toList.forM b.checkMethod
  b.stmts.toList.forM b.checkAnchor
  return {
    classes := b.classes
    fields := b.fields
    methods := b.methods.map (·.decl)
    vars := b.vars
    stmts := b.stmts
    main := b.main }

end Builder

namespace MethodBuilder

/-- The position that the next instruction gets. -/
def nextPosition (m : MethodBuilder) : Nat := m.code.size

def receiver? (m : MethodBuilder) : Option VarId :=
  m.outer.methods[m.id.index]?.bind (·.decl.receiver)

def addLocal (m : MethodBuilder) (name : String) (ty : Ty) : VarId × MethodBuilder :=
  let (v, b) := m.outer.addVar m.id name ty
  (v, { m with outer := b })

def addParam (m : MethodBuilder) (name : String) (ty : Ty) : VarId × MethodBuilder :=
  let (v, b) := m.outer.addVar m.id name ty
  let b := b.updateMethod m.id fun draft =>
    { draft with decl := { draft.decl with params := draft.decl.params ++ [v] } }
  (v, { m with outer := b })

def push (m : MethodBuilder) (instr : Instr) : MethodBuilder :=
  { m with code := m.code.push instr }

/-- Points the jump at a position elsewhere; other instructions and positions stay as they are. -/
def setTarget (m : MethodBuilder) (position target : Nat) : MethodBuilder :=
  { m with code := m.code.modify position (·.retarget target) }

def finish (m : MethodBuilder) : Builder := m.outer.finish m.id m.code.toList

/-- Leaves the method unfinished. -/
def abandon (m : MethodBuilder) : Builder := m.outer

end MethodBuilder

end ProgramFlow
