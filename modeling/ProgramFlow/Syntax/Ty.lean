import ProgramFlow.Id
/-!
Static types of variables, fields and allocations.
-/
namespace ProgramFlow

inductive Ty
  | int | boolean | byte | short | char | long | float | double
  | object (cls : ClassId)
  | array (element : Ty)
  | null | void
  deriving DecidableEq, Repr

namespace Ty

/-- The types whose values are 32-bit integers. -/
def holdsInt : Ty → Bool
  | int | boolean | byte | short | char => true
  | _ => false

def isReference : Ty → Bool
  | object _ | array _ | null => true
  | _ => false

/-- The class of an object type. -/
def class? : Ty → Option ClassId
  | object c => some c
  | _ => none

theorem not_isReference_of_holdsInt {t : Ty} (h : t.holdsInt = true) : t.isReference = false := by
  cases t <;> simp_all [holdsInt, isReference]

end Ty

end ProgramFlow
