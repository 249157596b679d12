/-!
Binary operators and their meaning on 32-bit integers: arithmetic wraps around, division truncates
towards zero, and a shift uses the low five bits of its amount.
-/
namespace ProgramFlow

inductive Operator
  | add | sub | mul | div | rem
  | eq | ne | lt | gt | le | ge
  | shl | shr | ushr
  | and | or | xor
  deriving DecidableEq, Repr

namespace Operator

/-- The operators that may stand in the condition of a branch. -/
def isCondition : Operator → Bool
  | eq | ne | lt | gt | le | ge => true
  | _ => false

/-- The operators that trap on a right operand of zero. -/
def divides : Operator → Bool
  | div | rem => true
  | _ => false

def symbol : Operator → String
  | add => "+"
  | sub => "-"
  | mul => "*"
  | div => "/"
  | rem => "%"
  | eq => "=="
  | ne => "!="
  | lt => "<"
  | gt => ">"
  | le => "<="
  | ge => ">="
  | shl => "<<"
  | shr => ">>"
  | ushr => ">>>"
  | and => "&"
  | or => "|"
  | xor => "^"

/-- A comparison answers one or zero. -/
def truth (b : Bool) : Int32 := if b then 1 else 0

/-- The value of `a op b`; there is none for a division by zero. -/
def apply (op : Operator) (a b : Int32) : Option Int32 :=
  match op with
  | add => some (a + b)
  | sub => some (a - b)
  | mul => some (a * b)
  | div => if b = 0 then none else some (a / b)
  | rem => if b = 0 then none else some (a % b)
  | eq => some (truth (a == b))
  | ne => some (truth (a != b))
  | lt => some (truth (decide (a < b)))
  | gt => some (truth (decide (b < a)))
  | le => some (truth (decide (a ≤ b)))
  | ge => some (truth (decide (b ≤ a)))
  | shl => some (a <<< b)
  | shr => some (a >>> b)
  | ushr => some (a.toUInt32 >>> b.toUInt32).toInt32
  | and => some (a &&& b)
  | or => some (a ||| b)
  | xor => some (a ^^^ b)

theorem apply_eq_none_iff {op : Operator} {a b : Int32} :
    op.apply a b = none ↔ op.divides = true ∧ b = 0 := by
  cases op <;> simp [apply, divides]

theorem isSome_apply {op : Operator} {a b : Int32} (h : ¬ (op.divides = true ∧ b = 0)) :
    (op.apply a b).isSome = true := by
  apply Option.isSome_iff_ne_none.2
  intro hnone
  exact h (apply_eq_none_iff.1 hnone)

end Operator

end ProgramFlow
