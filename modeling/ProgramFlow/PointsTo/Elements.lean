import ProgramFlow.PointsTo.Context
import ProgramFlow.PointsTo.Heap
import ProgramFlow.PointsTo.Pointers
/-!
Program elements in context. Each is numbered when it is first met.
-/
namespace ProgramFlow.PointsTo

/-- An object in its heap context. -/
structure ObjClone where
  context : ContextId
  obj : ObjId
  deriving DecidableEq, Repr

structure MethodClone where
  context : ContextId
  method : MethodId
  deriving DecidableEq, Repr

structure CallClone where
  context : ContextId
  site : StmtId
  /-- The method clone that contains the call. -/
  container : MethodCloneId
  deriving DecidableEq, Repr

instance : Coded ObjClone where
  code o := [o.context.index, o.obj.index]
  code_injective {a b} h := by
    obtain ⟨⟨_⟩, ⟨_⟩⟩ := a
    obtain ⟨⟨_⟩, ⟨_⟩⟩ := b
    simp_all

instance : Coded MethodClone where
  code m := [m.context.index, m.method.index]
  code_injective {a b} h := by
    obtain ⟨⟨_⟩, ⟨_⟩⟩ := a
    obtain ⟨⟨_⟩, ⟨_⟩⟩ := b
    simp_all

instance : Coded CallClone where
  code c := [c.context.index, c.site.index, c.container.index]
  code_injective {a b} h := by
    obtain ⟨⟨_⟩, ⟨_⟩, ⟨_⟩⟩ := a
    obtain ⟨⟨_⟩, ⟨_⟩, ⟨_⟩⟩ := b
    simp_all

structure Elements where
  contexts : Numbering .context (id : Context → Context)
  objects : Numbering .objectClone (id : ObjClone → ObjClone)
  methods : Numbering .methodClone (id : MethodClone → MethodClone)
  callSites : Numbering .callClone (id : CallClone → CallClone)
  pointers : PointerTable

namespace Elements

/-- The empty context is the first. -/
def emptyContext : ContextId := ⟨0⟩

def initial : Elements where
  contexts := (Numbering.empty.ensure Context.empty).2
  objects := .empty
  methods := .empty
  callSites := .empty
  pointers := .empty

variable (e : Elements)

def context (c : Context) : ContextId × Elements :=
  let (id, contexts) := e.contexts.ensure c
  (id, { e with contexts })

def object (o : ObjClone) : ObjCloneId × Elements :=
  let (id, objects) := e.objects.ensure o
  (id, { e with objects })

def method (m : MethodClone) : MethodCloneId × Elements :=
  let (id, methods) := e.methods.ensure m
  (id, { e with methods })

def callSite (c : CallClone) : CallCloneId × Elements :=
  let (id, callSites) := e.callSites.ensure c
  (id, { e with callSites })

/-- A pointer that is new points to nothing. -/
def pointer (x : Pointer) : PointerId × Elements :=
  let (id, pointers) := e.pointers.ensure x
  (id, { e with pointers })

def objectsOf (id : PointerId) : ObjSet := e.pointers.objectsOf id

def setObjects (id : PointerId) (objs : ObjSet) : Elements :=
  { e with pointers := e.pointers.setObjects id objs }

theorem objectsOf_pointer (x : Pointer) (id : PointerId) :
    (e.pointer x).2.objectsOf id = e.objectsOf id :=
  e.pointers.objectsOf_ensure x id

theorem objectsOf_setObjects {id : PointerId} (h : id.index < e.pointers.sets.size) (objs : ObjSet)
    (other : PointerId) :
    (e.setObjects id objs).objectsOf other = if id = other then objs else e.objectsOf other :=
  e.pointers.objectsOf_setObjects h objs other

end Elements

end ProgramFlow.PointsTo
