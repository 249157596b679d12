import ProgramFlow.Proofs.Constants.Transfer
import ProgramFlow.Proofs.Dataflow.Schedules
import ProgramFlow.Proofs.Program.Evaluation
/-!
Constant propagation describes every run of a method: the facts before a statement stand for what
the variables hold there, and so do the facts after it when it has been executed.
-/
namespace ProgramFlow

open Machine

namespace Value

/-- The data that a value stands for. An undefined value stands for none. -/
def Covers : Value → Datum → Prop
  | undef, _ => False
  | constant c, x => x = .int c
  | nac, _ => True

theorem Covers.mono {a b : Value} {x : Datum} (h : a.Covers x) (hle : a ≤ b) : b.Covers x := by
  rw [le_def] at hle
  cases a with
  | undef => exact h.elim
  | constant c =>
    cases b with
    | undef => cases hle
    | constant c' =>
      simp only [merge] at hle
      split at hle
      · cases hle
        exact h
      · cases hle
    | nac => trivial
  | nac =>
    have hb : nac = b := hle
    subst hb
    trivial

theorem Covers.mapConstant (A : Arithmetic) {a : Value} {x : Datum} (h : a.Covers x) :
    (a.mapConstant (- ·)).Covers (.scalar (A.negate x)) := by
  cases a with
  | undef => exact h
  | constant c =>
    cases h
    exact congrArg Datum.scalar (A.negate_int c)
  | nac => trivial

end Value

/-- An operation that does not trap comes to what its value stands for. -/
theorem Operator.applyValues_covers {A : Arithmetic} {op : Operator} {a b : Value} {x y : Datum}
    {z : Scalar} (hx : a.Covers x) (hy : b.Covers y) (hz : A.operate op x y = some z) :
    (op.applyValues a b).Covers (.scalar z) := by
  unfold applyValues
  split
  · next h =>
    obtain ⟨hop, rfl | rfl⟩ := h
    · exact hy.elim
    · cases hy
      rw [A.operate_zero x hop] at hz
      cases hz
  · cases a with
    | undef => exact hx.elim
    | constant c =>
      cases b with
      | undef => exact hy.elim
      | constant c' =>
        cases hx
        cases hy
        rw [A.operate_int] at hz
        obtain ⟨r, hr, rfl⟩ := Option.map_eq_some_iff.1 hz
        simp only [hr, Option.get_some]
        rfl
      | nac => trivial
    | nac => trivial

namespace Fact

theorem get_foldl_set (l : List VarId) (x : Value) (f : Fact) (v : VarId) :
    ((l.map fun w => (w, x)).foldl (fun f e => f.set e.1 e.2) f).get v =
      if v ∈ l then x else f.get v := by
  induction l generalizing f with
  | nil => simp
  | cons w l ih =>
    rw [List.map_cons, List.foldl_cons, ih, get_set]
    grind

theorem get_ofList_map (l : List VarId) (x : Value) (v : VarId) :
    (ofList (l.map fun w => (w, x))).get v = if v ∈ l then x else .undef :=
  get_foldl_set l x ∅ v

end Fact

namespace Program

variable {p : Program}

/-- What is computed for an integer variable is computed from integer variables. -/
def IntOperands (p : Program) (i : Instr) : Prop :=
  match i with
  | .copy lhs _ | .neg lhs _ | .binary lhs _ =>
    p.isIntVar lhs = .ok true → ∀ v ∈ i.uses, p.isIntVar v = .ok true
  | _ => True

instance (i : Instr) : Decidable (p.IntOperands i) :=
  match i with
  | .copy lhs rhs => inferInstanceAs (Decidable (p.isIntVar lhs = .ok true →
      ∀ v ∈ (Instr.copy lhs rhs).uses, p.isIntVar v = .ok true))
  | .neg lhs operand => inferInstanceAs (Decidable (p.isIntVar lhs = .ok true →
      ∀ v ∈ (Instr.neg lhs operand).uses, p.isIntVar v = .ok true))
  | .binary lhs exp => inferInstanceAs (Decidable (p.isIntVar lhs = .ok true →
      ∀ v ∈ (Instr.binary lhs exp).uses, p.isIntVar v = .ok true))
  | .entry | .exit | .nop | .new .. | .literal .. | .arrayLength .. | .cast .. | .loadField ..
  | .storeField .. | .loadArray .. | .storeArray .. | .invoke _ | .branch .. | .switch .. | .goto _
  | .ret _ | .unknown .. => .isTrue trivial

/-- The fact stands for what the assigned variables of integer type hold. -/
def Describes (p : Program) (f : Fact) (ρ : Env) : Prop :=
  ∀ v x, p.isIntVar v = .ok true → ρ v = some x → (f.get v).Covers x

theorem Describes.mono {f g : Fact} {ρ : Env} (h : p.Describes f ρ) (hle : f ≤ g) :
    p.Describes g ρ :=
  fun v x hv hx => (h v x hv hx).mono (Fact.le_iff.1 hle v)

theorem Describes.set {f : Fact} {ρ : Env} (h : p.Describes f ρ) {v : VarId} {a : Value}
    {x : Option Datum} (hx : ∀ y, x = some y → a.Covers y) :
    p.Describes (f.set v a) (ρ.assign (some v) x) := by
  intro w y hw hy
  rw [Env.assign_some] at hy
  rw [Fact.get_set]
  split at hy
  · next heq =>
    rw [if_pos heq]
    exact hx y hy
  · next hne =>
    rw [if_neg hne]
    exact h w y hw hy

/-- A variable that is not of integer type may be assigned anything. -/
theorem Describes.assign_other {f : Fact} {ρ : Env} (h : p.Describes f ρ) {v : VarId}
    (hv : p.isIntVar v ≠ .ok true) (x : Option Datum) : p.Describes f (ρ.assign (some v) x) := by
  intro w y hw hy
  rw [Env.assign_some] at hy
  split at hy
  · next heq => exact absurd (heq ▸ hw) hv
  · exact h w y hw hy

/-- The value of an expression stands for what the expression comes to. -/
theorem Describes.covers_evaluate {A : Arithmetic} {f : Fact} {ρ : Env} (h : p.Describes f ρ)
    {exp : BinaryExpr} (hl : p.isIntVar exp.left = .ok true)
    (hr : p.isIntVar exp.right = .ok true) {y : Datum}
    (hy : A.combine exp.op (ρ exp.left) (ρ exp.right) = .done (some y)) :
    (f.evaluate exp).Covers y := by
  unfold Arithmetic.combine at hy
  split at hy
  · next hρl hρr =>
    split at hy
    · next hz =>
      cases hy
      exact Operator.applyValues_covers (h _ _ hl hρl) (h _ _ hr hρr) hz
    · cases hy
  · cases hy

/-- The transfer of a statement describes what the statement does. -/
theorem Describes.assign {A : Arithmetic} {s : StmtId} {i : Instr} {f : Fact} {ρ : Env}
    {a : Option (VarId × Value)} {answer : Answer} {x : Option Datum} (h : p.Describes f ρ)
    (hops : p.IntOperands i) (ha : p.assignment? s i f = .ok a)
    (hx : A.result ρ answer i = .done x) :
    p.Describes (f.assign a) (ρ.assign i.assigned? x) := by
  unfold assignment? at ha
  cases hv : i.assigned? with
  | none =>
    rw [hv] at ha
    cases ha
    exact h
  | some v =>
    rw [hv] at ha
    obtain ⟨b, hb, ha⟩ := Outcome.bind_eq_ok.1 ha
    cases b with
    | false =>
      cases ha
      apply h.assign_other
      rw [hb]
      simp
    | true =>
      cases i with
      | literal lhs value =>
        cases hv
        cases hx
        cases value with
        | int c =>
          cases ha
          apply h.set
          rintro _ ⟨⟩
          exact congrArg Datum.scalar (A.literal_int c)
        | _ =>
          cases ha
          exact h.set fun _ _ => trivial
      | copy lhs rhs =>
        cases hv
        cases hx
        cases ha
        apply h.set
        intro y hy
        exact h rhs y (hops hb rhs (.head _)) hy
      | binary lhs exp =>
        cases hv
        cases ha
        apply h.set
        rintro y rfl
        exact h.covers_evaluate (hops hb exp.left (.head _)) (hops hb exp.right (.tail _ (.head _))) hx
      | neg lhs operand =>
        cases hv
        cases hx
        cases ha
        apply h.set
        intro y hy
        obtain ⟨z, hz, rfl⟩ := Option.map_eq_some_iff.1 hy
        exact (h operand z (hops hb operand (.head _)) hz).mapConstant A
      | unknown tag lhs reads => cases ha
      | _ =>
        cases ha
        exact h.set fun _ _ => trivial

theorem get_parameterFact {m : MethodId} {d : MethodDecl} (hd : p.method m = .ok d) {b : Fact}
    (hb : p.parameterFact m = .ok b) (v : VarId) :
    b.get v = if v ∈ d.params ∧ p.isIntVar v = .ok true then .nac else .undef := by
  obtain ⟨d', hd', hb⟩ := Outcome.bind_eq_ok.1 hb
  cases hd.symm.trans hd'
  obtain ⟨ints, hints, hb⟩ := Outcome.bind_eq_ok.1 hb
  cases hb
  obtain ⟨isInt, hisInt, rfl⟩ := Outcome.filterM_eq_ok.1 hints
  have hmem : v ∈ d.params.filter isInt ↔ v ∈ d.params ∧ p.isIntVar v = .ok true := by
    rw [List.mem_filter]
    apply and_congr_right
    intro hv
    rw [hisInt v hv, Except.ok.injEq]
  rw [Fact.get_ofList_map]
  exact if_congr hmem rfl rfl

/-- The boundary fact stands for whatever the parameters hold. -/
theorem describes_parameterFact {m : MethodId} {d : MethodDecl} (hd : p.method m = .ok d)
    {b : Fact} (hb : p.parameterFact m = .ok b) {ρ : Env} (hρ : Starts p d ρ) :
    p.Describes b ρ := by
  intro v x hv hx
  have hparam := hρ v (Option.ne_none_iff_exists'.2 ⟨x, hx⟩) hv
  rw [get_parameterFact hd hb, if_pos ⟨hparam, hv⟩]
  trivial

/-- The transfer of a statement always succeeds or always fails with one error. -/
theorem constantTransfer_cases {s : StmtId} {i : Instr} (hi : p.instr s = .ok i) :
    (∃ t : Fact → Fact, (∀ f, p.constantTransfer s f = .ok (t f)) ∧ Monotone t ∧
      ∀ f, f.Within p.vars.size → (t f).Within p.vars.size) ∨
    ∃ e, ∀ f, p.constantTransfer s f = .error e := by
  by_cases hv : ∀ v, i.assigned? = some v → ∃ b, p.isIntVar v = .ok b
  · by_cases hs : ∀ tag, ¬ p.Unsupported s tag
    · exact .inl (constantTransfer_eq_ok hi hv hs)
    · obtain ⟨tag, hs⟩ := not_forall_not.1 hs
      exact .inr ⟨_, hs.constantTransfer_eq_error⟩
  · obtain ⟨v, hv⟩ := not_forall.1 hv
    obtain ⟨hlhs, hv⟩ := Classical.not_imp.1 hv
    right
    cases hint : p.isIntVar v with
    | ok b => exact absurd ⟨b, hint⟩ hv
    | error e => exact ⟨e, fun f => by simp [constantTransfer, hi, assignment?, hlhs, hint]⟩

section Solutions

variable {m : MethodId} {d : MethodDecl} {g : ControlFlowGraph}
  {schedule : Dataflow.Schedule} {t : Dataflow.Table Fact}

/-- The problem is monotonic in a method in which the solver succeeds, whatever the statements
mention. -/
theorem Layout.monotonic_of_solve_eq_ok (hl : p.Layout) (hg : p.controlFlow m = .ok g)
    (ht : p.constantPropagation.solve g schedule = .ok t) :
    p.constantPropagation.Monotonic g (Fact.height p.vars.size) := by
  obtain ⟨d, hd, rfl, -, -, hnodes, hclosed⟩ := hl.of_controlFlow hg
  obtain ⟨b, hb, hwithin⟩ := hl.parameterFact_eq_ok hd
  have hinstr : ∀ n ∈ p.constantPropagation.direction.order g, ∃ i, p.instr n = .ok i := by
    intro n hn
    exact hl.instr_of_mem_nodes hd (hnodes ▸ (Dataflow.Direction.mem_order.1 hn).1)
  have hok : ∀ n ∈ p.constantPropagation.direction.order g, ∀ f,
      ∃ y, p.constantTransfer n f = .ok y := by
    apply Dataflow.Problem.transfer_ok_of_solve_eq_ok hclosed (hnodes ▸ d.nodup_nodes) hb _ ht
    intro n hn
    obtain ⟨i, hi⟩ := hinstr n hn
    apply (constantTransfer_cases hi).imp_left
    rintro ⟨f, hf, -⟩ x
    exact ⟨f x, hf x⟩
  constructor
  · rfl
  · exact fun _ _ => rfl
  · exact Fact.within_bot _
  · exact Fact.Within.merge
  · exact le_rfl
  · exact ⟨b, hb, hwithin⟩
  · intro n hn
    obtain ⟨i, hi⟩ := hinstr n hn
    apply (constantTransfer_cases hi).resolve_right
    rintro ⟨e, he⟩
    obtain ⟨y, hy⟩ := hok n hn ∅
    cases hy.symm.trans (he ∅)

theorem Layout.solves_of_solve_eq_ok (hl : p.Layout) (hg : p.controlFlow m = .ok g)
    (ht : p.constantPropagation.solve g schedule = .ok t) :
    p.constantPropagation.Solves g t := by
  have hmono := hl.monotonic_of_solve_eq_ok hg ht
  obtain ⟨d, hd, -, -, -, hnodes, hclosed⟩ := hl.of_controlFlow hg
  obtain ⟨u, hu, hleast⟩ := hmono.solve_eq_ok hclosed (hnodes ▸ d.nodup_nodes)
  cases ht.symm.trans (hu schedule)
  exact hleast.1

end Solutions

variable {m : MethodId} {d : MethodDecl} {g : ControlFlowGraph} {t : Dataflow.Table Fact}
  {A : Arithmetic}

/-- The fact before the statement of a position stands for what the variables hold. -/
def DescribesAt (p : Program) (t : Dataflow.Table Fact) (d : MethodDecl) (f : Frame) : Prop :=
  ∃ x, t.arriving.find? (d.point f.position) = some x ∧ p.Describes x f.locals

section Step

variable (hl : p.Layout) (hd : p.method m = .ok d) (hg : p.controlFlow m = .ok g)
include hl hd hg

theorem Layout.point_mem_order (k : Nat) :
    d.point k ∈ p.constantPropagation.direction.order g := by
  obtain ⟨d', hd', -, hentry, -, hnodes, -⟩ := hl.of_controlFlow hg
  cases hd.symm.trans hd'
  apply Dataflow.Direction.mem_order.2
  refine ⟨hnodes ▸ d.point_mem_nodes k, ?_⟩
  simp only [constantPropagation, Dataflow.Direction.boundaryNode, hentry]
  exact d.point_ne_entry k

variable (ht : p.constantPropagation.Solves g t)
include ht

/-- The boundary fact arrives at the first statement. -/
theorem Layout.describesAt_start {ρ : Env} (hρ : Starts p d ρ) : p.DescribesAt t d ⟨m, 0, ρ⟩ := by
  obtain ⟨d', hd', hmethod, hentry, -⟩ := hl.of_controlFlow hg
  cases hd.symm.trans hd'
  obtain ⟨b, hb, hleave⟩ := ht.boundary
  have hb : p.parameterFact m = .ok b := hmethod ▸ hb
  have hleave : t.leaving.find? d.entry = some b := hentry ▸ hleave
  have hindexed := indexed_of_controlFlow hg
  have hedge := hindexed.target_mem_succs (mem_edges_entry hg hd)
  obtain ⟨x, hx, hle⟩ := ht.le_arriving (hindexed.mem_preds_iff_mem_succs.2 hedge)
    (hl.point_mem_order hd hg 0) hleave
  exact ⟨x, hx, (describes_parameterFact hd hb hρ).mono hle⟩

/-- One step: the fact after the statement stands for the new values, and arrives where control goes
on. -/
theorem Layout.describesAt_step
    (hops : ∀ s ∈ d.body, ∀ i, p.instr s = .ok i → p.IntOperands i) {f f' : Frame}
    (hm : f.method = m) (hf : p.DescribesAt t d f) (hs : Advances A p f f') :
    (∃ y, t.leaving.find? (d.point f.position) = some y ∧ p.Describes y f'.locals) ∧
      p.DescribesAt t d f' := by
  subst hm
  cases hs with
  | @step _ d' k ρ i answer x hd' hk hi hread hx =>
    cases hd.symm.trans hd'
    obtain ⟨a, ha, hdesc⟩ := hf
    obtain ⟨a', y, ha', hy, hleave⟩ := ht.leaving _ (hl.point_mem_order hd hg k)
    cases ha.symm.trans ha'
    rw [MethodDecl.point_of_lt hk] at hy hleave
    obtain ⟨i', hi', hy⟩ := Outcome.bind_eq_ok.1 hy
    cases hi.symm.trans hi'
    obtain ⟨as, has, hy⟩ := Outcome.bind_eq_ok.1 hy
    cases hy
    have hafter := hdesc.assign (hops _ (MethodDecl.mem_body.2 ⟨k, hk, rfl⟩) i hi) has hx
    constructor
    · simp only [MethodDecl.point_of_lt hk]
      exact ⟨_, hleave, hafter⟩
    · have hindexed := indexed_of_controlFlow hg
      have hedge := hindexed.target_mem_succs (mem_edges_next hg hd hk hi A ρ)
      obtain ⟨z, hz, hle⟩ := ht.le_arriving (hindexed.mem_preds_iff_mem_succs.2 hedge)
        (hl.point_mem_order hd hg _) hleave
      exact ⟨z, hz, hafter.mono hle⟩

end Step

/-- Constant propagation is sound: at every statement that a run comes to, the fact before it stands
for what the integer variables hold, and the fact after it for what they hold then. -/
theorem Built.describes_runs (hp : p.Built) (hd : p.method m = .ok d)
    (hops : ∀ s ∈ d.body, ∀ i, p.instr s = .ok i → p.IntOperands i)
    (hg : p.controlFlow m = .ok g) {schedule : Dataflow.Schedule}
    (ht : p.constantPropagation.solve g schedule = .ok t) {f : Frame} (hf : Runs A p m f) :
    p.DescribesAt t d f ∧ ∀ f', Advances A p f f' →
      ∃ y, t.leaving.find? (d.point f.position) = some y ∧ p.Describes y f'.locals := by
  have hl := hp.layout
  have hsolves := hl.solves_of_solve_eq_ok hg ht
  have hat : p.DescribesAt t d f := by
    induction hf with
    | start hd' hρ =>
      cases hd.symm.trans hd'
      exact hl.describesAt_start hd hg hsolves hρ
    | step hf hs ih => exact (hl.describesAt_step hd hg hsolves hops hf.method ih hs).2
  exact ⟨hat, fun f' hs => (hl.describesAt_step hd hg hsolves hops hf.method hat hs).1⟩

/-- In the sample the fact before the branch stands for the literal and for the answer to the
call. -/
theorem Built.describes_runs_sample : ∃ g t x, sample.controlFlow ⟨2⟩ = .ok g ∧
    sample.constantPropagation.solve g .workList = .ok t ∧ t.arriving.find? ⟨13⟩ = some x ∧
      (x.get ⟨4⟩).Covers (.int 1) ∧ (x.get ⟨5⟩).Covers (.int 7) := by
  obtain ⟨g, hg, t, ht⟩ : ∃ g, sample.controlFlow ⟨2⟩ = .ok g ∧
      ∃ t, sample.constantPropagation.solve g .workList = .ok t := by
    have hrun : (do
        let g ← sample.controlFlow ⟨2⟩
        let _ ← sample.constantPropagation.solve g .workList
        return () : Outcome Unit) = .ok () := by decide +kernel
    obtain ⟨g, hg, hrun⟩ := Outcome.bind_eq_ok.1 hrun
    obtain ⟨t, ht, -⟩ := Outcome.bind_eq_ok.1 hrun
    exact ⟨g, hg, t, ht⟩
  have hops : ∀ s i, sample.instr s = .ok i → sample.IntOperands i := forall_instr.2 (by decide)
  have hstart : Runs default sample ⟨2⟩ ⟨⟨2⟩, 0, fun _ => none⟩ :=
    .start rfl fun _ hv => absurd rfl hv
  have hnew := hstart.step (.step (i := .new ⟨3⟩ (.object ⟨0⟩))
    (x := some (.reference (some 0))) rfl (by decide) rfl (by decide) rfl)
  have hliteral := hnew.step (@Advances.step default sample ⟨2⟩ _ 1 _ (.literal ⟨4⟩ (.int 1)) .trap
    _ rfl (by decide) rfl (by decide) rfl)
  have hstore := hliteral.step (.step (i := .storeField (.instance ⟨3⟩ ⟨0⟩) ⟨4⟩) (x := none)
    rfl (by decide) rfl (by decide) rfl)
  have hcall := hstore.step (.step
    (i := .invoke ⟨some ⟨5⟩, .virtual, ⟨⟨0⟩, "get"⟩, some ⟨3⟩, []⟩) (x := some (.int 7))
    rfl (by decide) rfl (by decide) rfl)
  obtain ⟨⟨x, hx, hdesc⟩, -⟩ :=
    sample_built.describes_runs (m := ⟨2⟩) rfl (fun s _ => hops s) hg ht hcall
  exact ⟨g, t, x, hg, ht, hx, hdesc ⟨4⟩ _ rfl rfl, hdesc ⟨5⟩ _ rfl rfl⟩

end Program

end ProgramFlow
