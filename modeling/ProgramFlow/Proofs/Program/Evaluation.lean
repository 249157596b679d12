import ProgramFlow.Proofs.Graph.ControlFlow
import ProgramFlow.Proofs.Program.Execution
/-!
What the instructions of a method do with data, and where control goes from them. Integers are
computed, other data are left to an arithmetic, and what comes from calls, the heap and unknown
statements is an answer from outside. Control follows the edges of the control-flow graph.
-/
namespace ProgramFlow

namespace Machine

open Execution (Content)

/-- A value that is no reference; those that are no 32-bit integers are only numbered. -/
inductive Scalar
  | int (value : Int32)
  | other (code : Nat)
  deriving DecidableEq, Repr

inductive Datum
  | scalar (value : Scalar)
  | reference (target : Content)
  deriving DecidableEq, Repr

@[match_pattern] abbrev Datum.int (c : Int32) : Datum := .scalar (.int c)

/-- The object that the datum refers to. -/
def Datum.address? : Datum → Content
  | scalar _ => none
  | reference a => a

/-- What variables hold; an unassigned variable holds nothing. -/
abbrev Env := VarId → Option Datum

/-- Assigns a variable, if there is one. -/
def Env.assign (ρ : Env) (lhs : Option VarId) (x : Option Datum) : Env :=
  match lhs with
  | some v => Function.update ρ v x
  | none => ρ

/-- How a machine computes with data. Integers follow the operators, a zero divides nothing, and
only a division can trap. -/
structure Arithmetic where
  literal : Literal → Scalar
  negate : Datum → Scalar
  operate : Operator → Datum → Datum → Option Scalar
  literal_int : ∀ c, literal (.int c) = .int c
  negate_int : ∀ c, negate (.int c) = .int (-c)
  operate_int : ∀ op a b, operate op (.int a) (.int b) = (op.apply a b).map .int
  operate_zero : ∀ {op} x, op.divides = true → operate op x (.int 0) = none
  operate_isSome : ∀ {op} x y, op.divides = false → (operate op x y).isSome = true

/-- The arithmetic that does not tell the other data apart. -/
instance : Inhabited Arithmetic where
  default := {
    literal
      | .int c => .int c
      | _ => .other 0
    negate
      | .int c => .int (-c)
      | _ => .other 0
    operate
      | op, .int a, .int b => (op.apply a b).map .int
      | op, _, y => if op.divides ∧ y = .int 0 then none else some (.other 0)
    literal_int := fun _ => rfl
    negate_int := fun _ => rfl
    operate_int := fun _ _ _ => rfl
    operate_zero := by
      intro op x hop
      split
      · next a b _ hb =>
        cases hb
        rw [Operator.apply_eq_none_iff.2 ⟨hop, rfl⟩]
        rfl
      · exact if_pos ⟨hop, rfl⟩
    operate_isSome := by
      intro op x y hop
      split
      · next a b =>
        rw [Option.isSome_map, Option.isSome_iff_ne_none, ne_eq, Operator.apply_eq_none_iff, hop]
        simp
      · rw [hop]
        rfl }

/-- What an instruction comes to: a trap, or the datum to assign if it yields one. -/
inductive Answer
  | trap
  | done (result : Option Datum)
  deriving DecidableEq, Repr

/-- The instruction does what the heap, another method or something unknown decides. -/
def asks : Instr → Bool
  | .new .. | .arrayLength .. | .cast .. | .loadField .. | .storeField .. | .loadArray ..
  | .storeArray .. | .invoke _ | .unknown .. => true
  | _ => false

namespace Arithmetic

variable (A : Arithmetic)

def datum : Literal → Datum
  | .null => .reference none
  | l => .scalar (A.literal l)

def combine (op : Operator) : Option Datum → Option Datum → Answer
  | some x, some y =>
    match A.operate op x y with
    | some z => .done (some (.scalar z))
    | none => .trap
  | _, _ => .done none

/-- What an instruction comes to, with the answer from outside if it asks for one. -/
def result (ρ : Env) (answer : Answer) (i : Instr) : Answer :=
  match i with
  | .literal _ l => .done (some (A.datum l))
  | .copy _ rhs => .done (ρ rhs)
  | .neg _ operand => .done ((ρ operand).map fun x => .scalar (A.negate x))
  | .binary _ exp => A.combine exp.op (ρ exp.left) (ρ exp.right)
  | .entry | .exit | .nop | .branch .. | .switch .. | .goto _ | .ret _ => .done none
  | .new .. | .arrayLength .. | .cast .. | .loadField .. | .storeField .. | .loadArray ..
  | .storeArray .. | .invoke _ | .unknown .. => answer

/-- The condition holds: it comes to something other than zero. -/
def holds (ρ : Env) (cond : BinaryExpr) : Bool :=
  match A.combine cond.op (ρ cond.left) (ρ cond.right) with
  | .done (some x) => x ≠ .int 0
  | _ => false

/-- The case that a switch selects. -/
def case? (ρ : Env) (scrutinee : VarId) (cases : List (Int32 × Nat)) : Option (Int32 × Nat) :=
  match ρ scrutinee with
  | some (.int c) => cases.find? (·.1 = c)
  | _ => none

/-- The position where control goes on; the exit stands behind the body. -/
def next (d : MethodDecl) (ρ : Env) (position : Nat) (i : Instr) : Nat :=
  match i with
  | .goto t => t
  | .branch cond t => if A.holds ρ cond then t else position + 1
  | .switch v cases otherwise => (case? ρ v cases).elim otherwise (·.2)
  | .ret _ => d.length
  | _ => position + 1

/-- The kind of the edge that control takes. -/
def exitKind (d : MethodDecl) (ρ : Env) (position : Nat) (i : Instr) : EdgeKind :=
  match i with
  | .goto _ => .goto
  | .branch cond _ => if A.holds ρ cond then .ifTrue else .ifFalse
  | .switch v cases _ => (case? ρ v cases).elim .switchDefault (.switchCase ·.1)
  | .ret _ => .ret
  | _ => if position + 1 < d.length then .fallThrough else .ret

end Arithmetic

/-- An activation of a method before the statement at its position. -/
structure Frame where
  method : MethodId
  position : Nat
  locals : Env

/-- A step inside a method, whatever is answered from outside. It reads assigned variables only, and
there is no step from a trap. -/
inductive Advances (A : Arithmetic) (p : Program) : Frame → Frame → Prop
  | step {m d k ρ i answer x} (hd : p.method m = .ok d) (hk : k < d.length)
    (hi : p.instr (d.stmtAt k) = .ok i) (hread : ∀ v ∈ i.uses, ρ v ≠ none)
    (hx : A.result ρ answer i = .done x) :
    Advances A p ⟨m, k, ρ⟩ ⟨m, A.next d ρ k i, ρ.assign i.assigned? x⟩

/-- Of the variables of integer type only the parameters are assigned. -/
def Starts (p : Program) (d : MethodDecl) (ρ : Env) : Prop :=
  ∀ v, ρ v ≠ none → p.isIntVar v = .ok true → v ∈ d.params

/-- The activations that a method goes through. -/
inductive Runs (A : Arithmetic) (p : Program) (m : MethodId) : Frame → Prop
  | start {d ρ} (hd : p.method m = .ok d) (hρ : Starts p d ρ) : Runs A p m ⟨m, 0, ρ⟩
  | step {f f'} (h : Runs A p m f) (hs : Advances A p f f') : Runs A p m f'

theorem Env.assign_some (ρ : Env) (v w : VarId) (x : Option Datum) :
    ρ.assign (some v) x w = if w = v then x else ρ w :=
  Function.update_apply ..

theorem Runs.method {A : Arithmetic} {p : Program} {m : MethodId} {f : Frame} (h : Runs A p m f) :
    f.method = m := by
  induction h with
  | start => rfl
  | step _ hs ih =>
    cases hs
    exact ih

namespace Arithmetic

variable {A : Arithmetic} {ρ ρ' : Env} {i : Instr} {d : MethodDecl} {k : Nat}

theorem result_congr (h : ∀ v ∈ i.uses, ρ v = ρ' v) (answer : Answer) :
    A.result ρ answer i = A.result ρ' answer i := by
  cases i <;> simp_all [result, Instr.uses]

theorem next_congr (h : ∀ v ∈ i.uses, ρ v = ρ' v) : A.next d ρ k i = A.next d ρ' k i := by
  cases i <;> simp_all [next, Instr.uses, holds, case?]

/-- A pure assignment asks for nothing, goes on and cannot trap. -/
theorem result_of_pureAssigned? {v : VarId} (h : i.pureAssigned? = some v) (answer : Answer) :
    ∃ x, A.result ρ answer i = .done x := by
  cases i with
  | literal lhs l => exact ⟨_, rfl⟩
  | copy lhs rhs => exact ⟨_, rfl⟩
  | neg lhs operand => exact ⟨_, rfl⟩
  | binary lhs exp =>
    have hop : exp.op.divides = false := by
      by_contra hop
      simp [Instr.pureAssigned?, hop] at h
    simp only [result, combine]
    split
    · next x y _ _ =>
      obtain ⟨z, hz⟩ := Option.isSome_iff_exists.1 (A.operate_isSome x y hop)
      rw [hz]
      exact ⟨_, rfl⟩
    · exact ⟨_, rfl⟩
  | _ => cases h

theorem next_of_pureAssigned? {v : VarId} (h : i.pureAssigned? = some v) :
    A.next d ρ k i = k + 1 := by
  cases i <;> simp_all [Instr.pureAssigned?, next]

/-- Where control goes on is one of the ways of the instruction. -/
theorem next_mem_ways (A : Arithmetic) (d : MethodDecl) (ρ : Env) (k : Nat) (i : Instr) :
    (A.exitKind d ρ k i, A.next d ρ k i) ∈ d.ways k i := by
  cases i with
  | branch cond t =>
    simp only [exitKind, next, MethodDecl.ways]
    cases A.holds ρ cond with
    | true => exact .head _
    | false => exact .tail _ (.head _)
  | switch v cases otherwise =>
    simp only [exitKind, next, MethodDecl.ways]
    cases hc : case? ρ v cases with
    | none => exact List.mem_append_right _ (.head _)
    | some c =>
      have hmem : c ∈ cases := by
        unfold case? at hc
        split at hc
        · exact List.mem_of_find?_eq_some hc
        · cases hc
      exact List.mem_append_left _ (List.mem_map_of_mem hmem)
  | _ => exact .head _

end Arithmetic

end Machine

namespace Program

variable {p : Program} {m : MethodId} {d : MethodDecl} {g : ControlFlowGraph}

open Machine in
/-- The edge that control takes from a statement. -/
theorem mem_outEdges_next (hg : p.controlFlow m = .ok g) (hd : p.method m = .ok d) {k : Nat}
    (hk : k < d.length) {i : Instr} (hi : p.instr (d.stmtAt k) = .ok i) (A : Arithmetic) (ρ : Env) :
    ⟨A.exitKind d ρ k i, d.stmtAt k, d.point (A.next d ρ k i)⟩ ∈ g.outEdges (d.stmtAt k) := by
  rw [outEdges_stmtAt hg hd hk hi]
  exact List.mem_map.2 ⟨_, A.next_mem_ways d ρ k i, rfl⟩

theorem mem_edges_next (hg : p.controlFlow m = .ok g) (hd : p.method m = .ok d) {k : Nat}
    (hk : k < d.length) {i : Instr} (hi : p.instr (d.stmtAt k) = .ok i) (A : Machine.Arithmetic)
    (ρ : Machine.Env) :
    ⟨A.exitKind d ρ k i, d.stmtAt k, d.point (A.next d ρ k i)⟩ ∈ g.edges :=
  ((indexed_of_controlFlow hg).mem_outEdges.1 (mem_outEdges_next hg hd hk hi A ρ)).1

/-- The edge from the entry to the first statement. -/
theorem mem_edges_entry (hg : p.controlFlow m = .ok g) (hd : p.method m = .ok d) :
    ⟨.entry, d.entry, d.point 0⟩ ∈ g.edges :=
  (mem_edges hg hd).2 (.inl rfl)

end Program

end ProgramFlow
