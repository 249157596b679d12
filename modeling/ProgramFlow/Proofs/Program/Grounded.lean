import ProgramFlow.Proofs.PointsTo.Rules
import ProgramFlow.Proofs.Program.Dispatch
/-!
Programs whose tables mention declared classes, fields and methods only. In such a program every
search for a method has an answer.
-/
namespace ProgramFlow

namespace Instr

/-- The field that the instruction accesses. -/
def field? : Instr → Option FieldId
  | loadField _ access | storeField access _ => some access.field
  | _ => none

/-- The class that the instruction calls a method of or allocates an object of. -/
def class? : Instr → Option ClassId
  | new _ ty => ty.class?
  | invoke call => some call.target.owner
  | _ => none

end Instr

namespace Program

/-- Every class, field and method that the tables mention is declared. -/
structure Grounded (p : Program) : Prop where
  superclass : ∀ c ∈ p.classes.toList, ∀ parent ∈ c.superclass, parent.index < p.classes.size
  member : ∀ c ∈ p.classes.toList, ∀ x ∈ c.methods, x.2.index < p.methods.size
  owner : ∀ d ∈ p.methods.toList, d.owner.index < p.classes.size
  main : ∀ m ∈ p.main, m.index < p.methods.size
  cls : ∀ x ∈ p.stmts.toList, ∀ c ∈ x.instr.class?, c.index < p.classes.size
  field : ∀ x ∈ p.stmts.toList, ∀ f ∈ x.instr.field?, f.index < p.fields.size

theorem grounded_iff {p : Program} : p.Grounded ↔
    (∀ c ∈ p.classes.toList, ∀ parent ∈ c.superclass, parent.index < p.classes.size) ∧
    (∀ c ∈ p.classes.toList, ∀ x ∈ c.methods, x.2.index < p.methods.size) ∧
    (∀ d ∈ p.methods.toList, d.owner.index < p.classes.size) ∧
    (∀ m ∈ p.main, m.index < p.methods.size) ∧
    (∀ x ∈ p.stmts.toList, ∀ c ∈ x.instr.class?, c.index < p.classes.size) ∧
    ∀ x ∈ p.stmts.toList, ∀ f ∈ x.instr.field?, f.index < p.fields.size :=
  ⟨fun ⟨h₁, h₂, h₃, h₄, h₅, h₆⟩ => ⟨h₁, h₂, h₃, h₄, h₅, h₆⟩,
    fun ⟨h₁, h₂, h₃, h₄, h₅, h₆⟩ => ⟨h₁, h₂, h₃, h₄, h₅, h₆⟩⟩

instance (p : Program) : Decidable p.Grounded := decidable_of_iff _ grounded_iff.symm

namespace Grounded

variable {p : Program} (hg : p.Grounded)
include hg

theorem class_lt {s : StmtId} {i : Instr} (hi : p.instr s = .ok i) {c : ClassId}
    (hc : i.class? = some c) : c.index < p.classes.size := by
  obtain ⟨x, hx, rfl⟩ := instr_eq_ok.1 hi
  exact hg.cls x (Array.mem_toList_iff.2 (Array.mem_of_getElem? (fetch_eq_ok_iff.1 hx))) c hc

theorem field_lt {s : StmtId} {i : Instr} (hi : p.instr s = .ok i) {f : FieldId}
    (hf : i.field? = some f) : f.index < p.fields.size := by
  obtain ⟨x, hx, rfl⟩ := instr_eq_ok.1 hi
  exact hg.field x (Array.mem_toList_iff.2 (Array.mem_of_getElem? (fetch_eq_ok_iff.1 hx))) f hf

theorem owner_lt {m : MethodId} {d : MethodDecl} (hd : p.method m = .ok d) :
    d.owner.index < p.classes.size :=
  hg.owner d (Array.mem_toList_iff.2 (Array.mem_of_getElem? (fetch_eq_ok_iff.1 hd)))

theorem exists_main {m : MethodId} (hm : p.main = some m) : ∃ d, p.method m = .ok d :=
  fetch_ok_of_lt (hg.main m hm)

theorem exists_concrete? {c : ClassId} {d : ClassDecl} (hc : p.cls c = .ok d) (name : String) :
    ∃ o, p.concrete? d name = .ok o := by
  unfold concrete?
  cases h : d.method? name with
  | none => exact ⟨none, rfl⟩
  | some m =>
    have hmem : (name, m) ∈ d.methods := by
      obtain ⟨l, r, hl, -⟩ := List.lookup_eq_some_iff.1 h
      rw [hl]
      exact List.mem_append_right l (.head r)
    have hd := Array.mem_toList_iff.2 (Array.mem_of_getElem? (fetch_eq_ok_iff.1 hc))
    obtain ⟨x, hx⟩ : ∃ x, p.method m = .ok x := fetch_ok_of_lt (hg.member d hd _ hmem)
    refine ⟨if x.isAbstract then none else some m, ?_⟩
    simp only [hx, Outcome.ok_bind]
    rfl

theorem exists_dispatchWithin (name : String) (n : Nat) {c : ClassId}
    (hc : c.index < p.classes.size) : ∃ o, p.dispatchWithin name n c = .ok o := by
  induction n generalizing c with
  | zero => exact ⟨none, rfl⟩
  | succ n ih =>
    obtain ⟨d, hd⟩ : ∃ d, p.cls c = .ok d := fetch_ok_of_lt hc
    obtain ⟨o, ho⟩ := hg.exists_concrete? hd name
    simp only [dispatchWithin, hd, ho, Outcome.ok_bind]
    cases o with
    | some m => exact ⟨some m, rfl⟩
    | none =>
      cases hp : d.superclass with
      | none => exact ⟨none, rfl⟩
      | some parent =>
        have hmem := Array.mem_toList_iff.2 (Array.mem_of_getElem? (fetch_eq_ok_iff.1 hd))
        exact ih (hg.superclass d hmem parent hp)

/-- A call that the program contains is resolved at any declared class, though perhaps to no
method. -/
theorem exists_resolve {s : StmtId} {call : Call} (hi : p.instr s = .ok (.invoke call))
    {receiver : Option ClassId} (hr : ∀ c ∈ receiver, c.index < p.classes.size) :
    ∃ o, p.resolve receiver call = .ok o := by
  have htarget := hg.exists_dispatchWithin call.target.name (p.classes.size + 1)
    (hg.class_lt hi rfl)
  unfold resolve
  split
  · exact htarget
  · exact htarget
  · split
    · exact ⟨none, rfl⟩
    · next c => exact hg.exists_dispatchWithin _ _ (hr c rfl)
  · split
    · exact ⟨none, rfl⟩
    · next c => exact hg.exists_dispatchWithin _ _ (hr c rfl)

theorem exists_resolve_object {s : StmtId} {call : Call} (hi : p.instr s = .ok (.invoke call))
    {o : PointsTo.Obj} (ho : p.Allocates o) : ∃ m, p.resolve o.class? call = .ok m := by
  obtain ⟨_, _, -, -, -, hnew⟩ := ho
  exact hg.exists_resolve hi fun c hc => hg.class_lt hnew hc

end Grounded

theorem sample_grounded : sample.Grounded := by decide

end Program

end ProgramFlow
