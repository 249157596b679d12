import ProgramFlow.Collection.Numbering
import ProgramFlow.Collection.SortedSet
/-!
Pointers and the sets of objects that they may point to. Pointers are numbered when they are first
met; the sets are kept apart from them, at the same numbers.
-/
namespace ProgramFlow.PointsTo

/-- What may point to objects. The elements of an array share one pointer. -/
inductive Pointer
  | var (context : ContextId) (var : VarId)
  | staticField (field : FieldId)
  | instanceField (base : ObjCloneId) (field : FieldId)
  | arrayElement (base : ObjCloneId)
  deriving DecidableEq, Repr

instance : Coded Pointer where
  code
    | .var c v => [0, c.index, v.index]
    | .staticField f => [1, f.index]
    | .instanceField o f => [2, o.index, f.index]
    | .arrayElement o => [3, o.index]
  code_injective {a b} h := by
    cases a <;> cases b <;> simp_all [Id.ext_iff]

abbrev ObjSet := SortedSet ObjCloneId

structure PointerTable where
  names : Numbering .pointer (id : Pointer → Pointer)
  sets : Array ObjSet

namespace PointerTable

def empty : PointerTable := ⟨.empty, #[]⟩

variable (t : PointerTable)

def size : Nat := t.names.size

def find? (x : Pointer) : Option PointerId := t.names.find? x

/-- Numbers a pointer. Where the sets do not reach its number yet, an empty one is added. -/
def ensure (x : Pointer) : PointerId × PointerTable :=
  let (id, names) := t.names.ensure x
  (id, ⟨names, if t.sets.size ≤ id.index then t.sets.push ∅ else t.sets⟩)

def name (id : PointerId) : Outcome Pointer := t.names.row id

def objects (id : PointerId) : Outcome ObjSet := fetch t.sets id

/-- The pointer with a number and the set there. -/
def row (id : PointerId) : Outcome (Pointer × ObjSet) := do return (← t.name id, ← t.objects id)

/-- The set at a number; where there is none, no objects. -/
def objectsOf (id : PointerId) : ObjSet := t.sets[id.index]?.getD ∅

def setObjects (id : PointerId) (objs : ObjSet) : PointerTable :=
  { t with sets := t.sets.setIfInBounds id.index objs }

/-- The pointers in order, each with the set at its position. -/
def rows : List (Pointer × ObjSet) := t.names.rows.zip t.sets.toList

def toList : List (PointerId × Pointer × ObjSet) := t.rows.zipIdx.map fun (r, i) => (⟨i⟩, r)

/-- Numbering a pointer changes no set. -/
theorem objectsOf_ensure (x : Pointer) (id : PointerId) :
    (t.ensure x).2.objectsOf id = t.objectsOf id := by
  simp only [objectsOf, ensure]
  split
  · rw [Array.getElem?_push]
    split
    · next heq => simp [heq]
    · rfl
  · rfl

theorem objectsOf_setObjects {id : PointerId} (h : id.index < t.sets.size) (objs : ObjSet)
    (other : PointerId) :
    (t.setObjects id objs).objectsOf other = if id = other then objs else t.objectsOf other := by
  simp only [objectsOf, setObjects, Array.getElem?_setIfInBounds, Id.ext_iff, if_pos h]
  split <;> rfl

end PointerTable

end ProgramFlow.PointsTo
