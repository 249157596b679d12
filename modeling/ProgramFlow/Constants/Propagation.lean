import ProgramFlow.Constants.Fact
import ProgramFlow.Dataflow.Problem
/-!
Constant propagation in one method: variables of integer type get the value of what is assigned to
them, and what comes from a call, a cast or the heap is no constant.
-/
namespace ProgramFlow

namespace Operator

variable {op : Operator} {a b c : Int32}

/-- The value of an operation. A division by zero has none, and neither has a division by a value
that is still undefined: it may turn out to be zero. Behind this guard no operation traps. -/
def applyValues (op : Operator) (x y : Value) : Value :=
  if guard : op.divides = true ∧ (y = .undef ∨ y = .constant 0) then .undef
  else
    match x, y, guard with
    | .constant a, .constant b, guard =>
      .constant ((op.apply a b).get (isSome_apply fun h => guard ⟨h.1, .inr (congrArg _ h.2)⟩))
    | .nac, _, _ => .nac
    | _, .nac, _ => .nac
    | _, _, _ => .undef

theorem applyValues_of_divides (h : op.divides = true ∧ b = 0) (x : Value) :
    op.applyValues x (.constant b) = .undef :=
  dif_pos ⟨h.1, .inr (congrArg _ h.2)⟩

theorem applyValues_of_apply (h : op.apply a b = some c) :
    op.applyValues (.constant a) (.constant b) = .constant c := by
  have hguard : ¬ (op.divides = true ∧
      (Value.constant b = Value.undef ∨ Value.constant b = Value.constant 0)) := by
    intro hdiv
    have hb : b = 0 := by simpa using hdiv.2
    rw [apply_eq_none_iff.2 ⟨hdiv.1, hb⟩] at h
    cases h
  rw [applyValues, dif_neg hguard]
  simp only [h, Option.get_some]

end Operator

namespace Fact

def evaluate (f : Fact) (exp : BinaryExpr) : Value :=
  exp.op.applyValues (f.get exp.left) (f.get exp.right)

def assign (f : Fact) : Option (VarId × Value) → Fact
  | none => f
  | some (v, x) => f.set v x

end Fact

namespace Program

variable (p : Program)

/-- The integer variable that an instruction assigns, with the value it gets. -/
def assignment? (s : StmtId) (i : Instr) (f : Fact) : Outcome (Option (VarId × Value)) :=
  match i.assigned? with
  | none => .ok none
  | some v => do
    if !(← p.isIntVar v) then
      return none
    match i with
    | .literal _ (.int c) => return some (v, .constant c)
    | .literal _ _ => return some (v, .nac)
    | .copy _ rhs => return some (v, f.get rhs)
    | .binary _ exp => return some (v, f.evaluate exp)
    | .neg _ operand => return some (v, (f.get operand).mapConstant (- ·))
    | .unknown tag _ _ => throw (.unsupportedConstruct .constants s tag)
    | _ => return some (v, .nac)

def constantTransfer (s : StmtId) (f : Fact) : Outcome Fact := do
  return f.assign (← p.assignment? s (← p.instr s) f)

/-- Integer parameters have an unknown value on entry. -/
def parameterFact (m : MethodId) : Outcome Fact := do
  let decl ← p.method m
  let ints ← decl.params.filterM p.isIntVar
  return .ofList (ints.map fun v => (v, .nac))

def constantPropagation : Dataflow.Problem Fact where
  direction := .forward
  boundary g := p.parameterFact g.method
  start := ∅
  merge := Fact.merge
  transfer := p.constantTransfer
  height := 2 * p.vars.size

end Program

end ProgramFlow
