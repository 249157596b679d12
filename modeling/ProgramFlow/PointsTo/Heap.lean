import ProgramFlow.Collection.Numbering
import ProgramFlow.Syntax.Ty
/-!
Abstract heap objects: one for each allocation site, however often it is executed.
-/
namespace ProgramFlow.PointsTo

structure Obj where
  site : StmtId
  ty : Ty
  /-- The method that contains the allocation. -/
  container : MethodId
  /-- The class that declares the container. -/
  owner : ClassId
  deriving DecidableEq, Repr

/-- The class that calls on the object are dispatched at; an array has none. -/
def Obj.class? (o : Obj) : Option ClassId := o.ty.class?

def Obj.text (id : ObjId) (o : Obj) : String := id.text ++ "@" ++ o.site.text

/-- The objects, numbered in the order in which their sites were first seen. -/
abbrev Heap := Numbering .object Obj.site

end ProgramFlow.PointsTo
