import ProgramFlow.Proofs.Program.Assembly
/-!
What `build` refuses. It reports a fault of the program exactly when a method is unfinished, branches
on something that is no comparison, or jumps out of its body.
-/
namespace ProgramFlow

/-- A check passes what is not bad, and of anything bad it reports a fault. -/
inductive Judges (bad : Prop) : Outcome Unit → Prop
  | passes (h : ¬ bad) : Judges bad (.ok ())
  | refuses (h : bad) (fault : ProgramFault) : Judges bad (.error (.invalidProgram fault))

namespace Judges

variable {bad bad' : Prop} {x y : Outcome Unit}

theorem iff (h : Judges bad x) (heq : bad ↔ bad') : Judges bad' x :=
  propext heq ▸ h

theorem eq_ok_iff (h : Judges bad x) : x = .ok () ↔ ¬ bad := by
  cases h with
  | passes h => simp [h]
  | refuses h fault => simp [h]

theorem exists_fault_iff (h : Judges bad x) :
    bad ↔ ∃ fault, x = .error (.invalidProgram fault) := by
  cases h with
  | passes h => simp [h]
  | refuses h fault => exact ⟨fun _ => ⟨fault, rfl⟩, fun _ => h⟩

/-- Of two checks in a row the second does not hide what the first one finds. -/
theorem bind (hx : Judges bad x) (hy : Judges bad' y) :
    Judges (bad ∨ bad') (x >>= fun _ => y) := by
  cases hx with
  | passes hx => exact hy.iff (by simp [hx])
  | refuses hx fault => exact .refuses (.inl hx) fault

theorem forM {α : Type} {l : List α} {P : α → Prop} {f : α → Outcome Unit}
    (h : ∀ a ∈ l, Judges (P a) (f a)) : Judges (∃ a ∈ l, P a) (l.forM f) := by
  induction l with
  | nil => exact .passes (by simp)
  | cons a l ih =>
    rw [List.forall_mem_cons] at h
    exact (h.1.bind (ih h.2)).iff (by simp)

end Judges

/-- A branch on something that is no comparison, or a jump out of a body of this length. -/
def Instr.Stray (length : Nat) (i : Instr) : Prop :=
  (∃ cond target, i = .branch cond target ∧ cond.op.isCondition = false) ∨
    ∃ t ∈ i.targets, length ≤ t

namespace Builder

theorem judges_targets (name : String) (length : Nat) (targets : List Nat) :
    Judges (∃ t ∈ targets, length ≤ t)
      (match targets.find? (length ≤ ·) with
      | some t => throw (.invalidProgram (.targetOutOfBounds t name length))
      | none => pure ()) := by
  split
  · next t ht =>
    exact .refuses ⟨t, List.mem_of_find?_eq_some ht, by simpa using List.find?_some ht⟩ _
  · next h => exact .passes (by simpa using h)

theorem judges_checkInstr (name : String) (length position : Nat) (i : Instr) :
    Judges (i.Stray length) (checkInstr name length position i) := by
  have htargets := judges_targets name length i.targets
  cases i with
  | branch cond target =>
    cases h : cond.op.isCondition with
    | false =>
      simp only [checkInstr, h]
      exact .refuses (.inl ⟨cond, target, rfl, h⟩) _
    | true =>
      simp only [checkInstr, h]
      exact htargets.iff (by simp [Instr.Stray, h])
  | _ => exact htargets.iff (by simp [Instr.Stray])

/-- The method is unfinished or has a stray statement. -/
def Faulty (b : Builder) (draft : MethodDraft) : Prop :=
  draft.finished = false ∨ ∃ k < draft.decl.length, ∃ x,
    b.stmts[(draft.decl.stmtAt k).index]? = some x ∧ x.instr.Stray draft.decl.length

theorem judges_checkMethod {b : Builder} {draft : MethodDraft} {m : MethodId}
    (h : draft.finished = true → b.Placed m draft.decl) :
    Judges (b.Faulty draft) (b.checkMethod draft) := by
  unfold checkMethod
  cases hf : draft.finished with
  | false => exact .refuses (.inl hf) _
  | true =>
    obtain ⟨-, -, hbody⟩ := (h hf).stmts
    have hstmts : ∀ k ∈ List.range draft.decl.length,
        Judges (∃ x, b.stmts[(draft.decl.stmtAt k).index]? = some x ∧
          x.instr.Stray draft.decl.length) (do
          let stmt ← fetch b.stmts (draft.decl.stmtAt k)
          checkInstr draft.decl.name draft.decl.length k stmt.instr) := by
      intro k hk
      obtain ⟨i, hi⟩ := hbody k (List.mem_range.1 hk)
      rw [fetch_eq_ok_iff.2 hi, Outcome.ok_bind]
      exact (judges_checkInstr _ _ k i).iff (by simp [hi])
    exact (Judges.forM hstmts).iff (by simp [Faulty, hf])

/-- A method that passes is finished, and its jumps stay in its body. -/
theorem Orderly.checkMethod_eq_ok {b : Builder} (hb : b.Orderly) {i : Nat} {draft : MethodDraft}
    (hi : b.methods[i]? = some draft) (h : b.checkMethod draft = .ok ()) :
    b.Placed ⟨i⟩ draft.decl ∧ ∀ k < draft.decl.length, ∀ x,
      b.stmts[(draft.decl.stmtAt k).index]? = some x →
      ∀ t ∈ x.instr.targets, t < draft.decl.length := by
  have hok : ¬ b.Faulty draft := (judges_checkMethod (hb.placed hi)).eq_ok_iff.1 h
  have hf : draft.finished = true := by
    by_contra hf
    exact hok (.inl (Bool.eq_false_iff.2 hf))
  refine ⟨hb.placed hi hf, fun k hk x hx t ht => ?_⟩
  by_contra hlt
  exact hok (.inr ⟨k, hk, x, hx, .inr ⟨t, ht, Nat.not_lt.1 hlt⟩⟩)

theorem checkAnchor_ne_invalid (b : Builder) (x : Stmt) (fault : ProgramFault) :
    b.checkAnchor x ≠ .error (.invalidProgram fault) := by
  unfold checkAnchor
  split
  · exact nofun
  · next v _ => cases h : b.vars[v.index]? <;> simp [fetch, h]

/-- Exactly the builders with a faulty method are refused as an invalid program. -/
theorem Assembled.exists_faulty_iff {b : Builder} (hb : b.Assembled) :
    (∃ draft ∈ b.methods.toList, b.Faulty draft) ↔
      ∃ fault, b.build = .error (.invalidProgram fault) := by
  have hmethods : Judges (∃ draft ∈ b.methods.toList, b.Faulty draft)
      (b.methods.toList.forM b.checkMethod) := by
    apply Judges.forM
    intro draft hdraft
    obtain ⟨i, hi⟩ := List.getElem?_of_mem hdraft
    exact judges_checkMethod fun hf => hb.orderly.placed (by simpa using hi) hf
  rw [hmethods.exists_fault_iff]
  apply exists_congr
  intro fault
  unfold build
  cases b.methods.toList.forM b.checkMethod with
  | error e => simp
  | ok u =>
    simp only [Outcome.ok_bind]
    cases h : b.stmts.toList.forM b.checkAnchor with
    | ok _ => simp
    | error e =>
      obtain ⟨x, -, hx⟩ := Outcome.exists_of_forM_eq_error h
      have hne : e ≠ .invalidProgram fault := fun he => checkAnchor_ne_invalid b x fault (he ▸ hx)
      simp [hne]

end Builder

end ProgramFlow
