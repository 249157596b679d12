import ProgramFlow.Collection.SortedSet
import ProgramFlow.Dataflow.Problem
/-!
Live variables: those that some later statement may read before they are assigned again.
-/
namespace ProgramFlow

abbrev LiveSet := SortedSet VarId

namespace Instr

/-- What is live before an instruction, given what is live after it. -/
def liveBefore (i : Instr) (live : LiveSet) : LiveSet :=
  i.uses.foldl .insert (i.assigned?.elim live live.erase)

theorem mem_liveBefore {i : Instr} {live : LiveSet} {v : VarId} :
    v ∈ i.liveBefore live ↔ v ∈ i.uses ∨ v ∈ live ∧ i.assigned? ≠ some v := by
  rw [liveBefore, SortedSet.mem_foldl_insert]
  cases h : i.assigned? with
  | none => simp [or_comm]
  | some w =>
    simp only [Option.elim, SortedSet.mem_erase, ne_eq, Option.some.injEq, eq_comm (a := w)]
    exact or_comm

end Instr

namespace Program

variable (p : Program)

def liveVariables : Dataflow.Problem LiveSet where
  direction := .backward
  boundary _ := .ok ∅
  start := ∅
  merge := .union
  transfer s live := (·.liveBefore live) <$> p.instr s
  height := (p.stmts.toList.flatMap fun s => s.instr.uses).length

end Program

end ProgramFlow
