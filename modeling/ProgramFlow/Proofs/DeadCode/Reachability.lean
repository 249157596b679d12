import ProgramFlow.Proofs.DeadCode.Removal
/-!
Every statement that a run of a method comes to is reached by dead code detection, provided that
what is computed for integer variables is computed from integer variables. Without that proviso it
fails: a comparison of references has no value, and where paths meet the constant of the other path
decides a switch that a run takes the other way.
-/
namespace ProgramFlow

theorem Operator.truth_eq_one_iff {b : Bool} : truth b = 1 ↔ b = true := by
  cases b <;> decide

theorem Operator.isCondition_of_divides {op : Operator} (h : op.divides = true) :
    op.isCondition = false := by
  cases op <;> simp_all [divides, isCondition]

/-- A comparison of integers answers whether it holds. -/
theorem Operator.apply_of_isCondition {op : Operator} (h : op.isCondition = true) (a b : Int32) :
    op.apply a b = some (truth (decide (op.apply a b = some 1))) := by
  cases op <;> simp_all [isCondition, apply, truth_eq_one_iff, bne, beq_eq_decide]

namespace Machine

/-- A comparison of data: integers compare as they do, and other data are equal when they are the
same. -/
def Datum.compare (op : Operator) : Datum → Datum → Bool
  | .int a, .int b => op.apply a b = some 1
  | x, y =>
    match op with
    | .eq => x = y
    | .ne => x ≠ y
    | _ => false

namespace Arithmetic

/-- Comparisons answer one or zero, whatever they compare. -/
def AnswersTruth (A : Arithmetic) : Prop :=
  ∀ op x y, op.isCondition = true → ∃ b, A.operate op x y = some (.int (Operator.truth b))

/-- The arithmetic that compares data that are no integers by identity. -/
def identity : Arithmetic where
  literal := literal default
  negate := negate default
  operate op x y :=
    if op.isCondition then some (.int (Operator.truth (Datum.compare op x y)))
    else operate default op x y
  literal_int := literal_int default
  negate_int := negate_int default
  operate_int := by
    intro op a b
    split
    · next hop =>
      rw [Operator.apply_of_isCondition hop]
      rfl
    · exact operate_int default op a b
  operate_zero := by
    intro op x hop
    rw [if_neg (by simp [Operator.isCondition_of_divides hop])]
    exact operate_zero default x hop
  operate_isSome := by
    intro op x y hop
    split
    · rfl
    · exact operate_isSome default x y hop

theorem identity_answersTruth : identity.AnswersTruth :=
  fun op x y hop => ⟨Datum.compare op x y, if_pos hop⟩

end Arithmetic

/-- The step of a statement that needs no answer from outside. -/
theorem Runs.own {A : Arithmetic} {p : Program} {m : MethodId} {k : Nat} {ρ : Env}
    (h : Runs A p m ⟨m, k, ρ⟩) {d : MethodDecl} (hd : p.method m = .ok d) (hk : k < d.length)
    {i : Instr} (hi : p.instr (d.stmtAt k) = .ok i) (hread : ∀ v ∈ i.uses, ρ v ≠ none)
    {x : Option Datum} (hx : ∀ answer, A.result ρ answer i = .done x) :
    Runs A p m ⟨m, A.next d ρ k i, ρ.assign i.assigned? x⟩ :=
  h.step (.step hd hk hi hread (hx .trap))

end Machine

namespace Program

open Machine

variable {p : Program} {m : MethodId} {d : MethodDecl} {schedule : Dataflow.Schedule}

/-- The nodes of a method that dead code detection reaches. -/
def visited (p : Program) (schedule : Dataflow.Schedule) (m : MethodId) : Outcome (List StmtId) := do
  let graph ← p.controlFlow m
  let constants ← p.constantPropagation.solve graph schedule
  let live ← p.liveVariables.solve graph schedule
  p.reachedNodes {
    graph
    facts := constants.before .forward
    live := live.after .backward }

/-- A report is about the nodes that have been visited: it lists every other statement of the body,
and counts them. -/
theorem visited_of_deadCode (hl : p.Layout) (hd : p.method m = .ok d) {report : DeadCodeReport}
    (hr : p.deadCode schedule m = .ok report) : ∃ reached, p.visited schedule m = .ok reached ∧
      (∀ s ∈ d.body, s ∉ reached → s ∈ report.dead) ∧
      report.unreachable = (d.body.filter (· ∉ reached)).length := by
  obtain ⟨g, hg, hr⟩ := Outcome.bind_eq_ok.1 hr
  obtain ⟨facts, hc, hr⟩ := Outcome.bind_eq_ok.1 hr
  obtain ⟨lives, hlive, hr⟩ := Outcome.bind_eq_ok.1 hr
  obtain ⟨reached, hreached, hr⟩ := Outcome.bind_eq_ok.1 hr
  obtain ⟨d', hd', hr⟩ := Outcome.bind_eq_ok.1 hr
  obtain ⟨useless, huseless, hr⟩ := Outcome.bind_eq_ok.1 hr
  obtain ⟨d'', hd'', rfl, -⟩ := hl.of_controlFlow hg
  cases hd.symm.trans hd'
  cases hr
  refine ⟨reached, ?_, ?_, rfl⟩
  · simp only [visited, hg, hc, hlive, Outcome.ok_bind, hreached]
  · intro s hs hnot
    exact List.mem_filter.2 ⟨hs, decide_eq_true (.inl hnot)⟩

/-- Every statement that a run of a method comes to has been visited, so none of them is reported as
unreachable. -/
theorem Built.point_mem_visited (hp : p.Built) (hd : p.method m = .ok d)
    (hops : ∀ s ∈ d.body, ∀ i, p.instr s = .ok i → p.IntOperands i) {report : DeadCodeReport}
    (hr : p.deadCode schedule m = .ok report) : ∃ reached, p.visited schedule m = .ok reached ∧
      report.unreachable = (d.body.filter (· ∉ reached)).length ∧
      ∀ A f, Runs A p m f → d.point f.position ∈ reached := by
  have hl := hp.layout
  obtain ⟨reached, hv, -, hcount⟩ := visited_of_deadCode hl hd hr
  refine ⟨reached, hv, hcount, fun A f hf => ?_⟩
  obtain ⟨g, hg, hv⟩ := Outcome.bind_eq_ok.1 hv
  obtain ⟨facts, hc, hv⟩ := Outcome.bind_eq_ok.1 hv
  obtain ⟨lives, hlive, hreached⟩ := Outcome.bind_eq_ok.1 hv
  have h : p.Detected m d g facts lives reached [] :=
    ⟨hl, hd, hg, hops, hl.solves_of_solve_eq_ok hg hc, hl.intsOnly_of_solve_eq_ok hg hc,
      hl.live_solves_of_solve_eq_ok hg hlive, hreached, fun _ hn => absurd hn (List.not_mem_nil)⟩
  suffices htied : p.Tied facts lives d reached m f.position f.locals f.locals from htied.reaches
  -- the run is tied to itself
  induction hf with
  | start hd' hρ =>
    cases hd.symm.trans hd'
    exact h.tied_start hρ
  | step hf hs ih =>
    have hm := hf.method
    cases hs with
    | step hd' hk hi hread hx =>
      cases hm
      cases hd.symm.trans hd'
      exact h.tied_kept ih hk hi hread hx

/-- The run of the method jumps over the statement that is not visited. -/
theorem Built.point_mem_visited_wasteful : ∃ d report reached, wasteful.method ⟨0⟩ = .ok d ∧
    wasteful.deadCode .workList ⟨0⟩ = .ok report ∧ wasteful.visited .workList ⟨0⟩ = .ok reached ∧
      report.unreachable = 1 ∧ d.point 5 ∈ reached := by
  obtain ⟨report, hr, hcount⟩ : ∃ report, wasteful.deadCode .workList ⟨0⟩ = .ok report ∧
      report.unreachable = 1 := by
    have hrun : DeadCodeReport.unreachable <$> wasteful.deadCode .workList ⟨0⟩ = .ok 1 := by
      decide +kernel
    exact Outcome.map_eq_ok.1 hrun
  have hops : ∀ s i, wasteful.instr s = .ok i → wasteful.IntOperands i :=
    forall_instr.2 (by decide)
  obtain ⟨reached, hv, -, hmem⟩ :=
    wasteful_built.point_mem_visited (m := ⟨0⟩) rfl (fun s _ => hops s) hr
  let ρ : Env := fun v => if v = ⟨0⟩ then some (.int 9) else none
  have hstart : Runs default wasteful ⟨0⟩ ⟨⟨0⟩, 0, ρ⟩ := by
    refine .start rfl fun v hv _ => ?_
    by_contra hne
    refine hv (if_neg ?_)
    rintro rfl
    exact hne (.head _)
  have hliteral := hstart.own (i := .literal ⟨1⟩ (.int 1)) rfl (by decide) rfl (by decide)
    fun _ => rfl
  have hbranch := hliteral.own (i := .branch ⟨.lt, ⟨1⟩, ⟨1⟩⟩ 4) rfl (by decide) rfl (by decide)
    fun _ => rfl
  have hcopy := hbranch.own (i := .copy ⟨2⟩ ⟨1⟩) rfl (by decide) rfl (by decide) fun _ => rfl
  have hgoto := hcopy.own (i := .goto 5) rfl (by decide) rfl (by decide) fun _ => rfl
  exact ⟨_, report, reached, rfl, hr, hv, hcount, hmem _ _ hgoto⟩

/-- Compares two references twice: by a branch, and by an assignment that a switch looks at. -/
def comparing : Program where
  classes := #[⟨"Main", none, false, [("run", ⟨0⟩)]⟩]
  fields := #[]
  methods := #[⟨"run", ⟨0⟩, true, false, [⟨0⟩, ⟨1⟩], none, [], 0, 6⟩]
  vars := #[⟨"p", .object ⟨0⟩, ⟨0⟩⟩, ⟨"q", .object ⟨0⟩, ⟨0⟩⟩, ⟨"same", .boolean, ⟨0⟩⟩]
  stmts := #[
    ⟨⟨0⟩, none, .entry⟩,
    ⟨⟨0⟩, some 0, .literal ⟨2⟩ (.int 0)⟩,
    ⟨⟨0⟩, some 1, .branch ⟨.ne, ⟨0⟩, ⟨1⟩⟩ 3⟩,
    ⟨⟨0⟩, some 2, .binary ⟨2⟩ ⟨.eq, ⟨0⟩, ⟨1⟩⟩⟩,
    ⟨⟨0⟩, some 3, .switch ⟨2⟩ [(1, 5)] 4⟩,
    ⟨⟨0⟩, some 4, .ret none⟩,
    ⟨⟨0⟩, some 5, .ret none⟩,
    ⟨⟨0⟩, none, .exit⟩]
  main := some ⟨0⟩

open MethodBuilder in
theorem comparing_built : comparing.Built := by
  have hmain := (Builder.Assembled.empty.addClass "Main" none).finish ⟨0⟩ "run" true rfl
    ((((((((((Edits.refl.addParam "p" (.object ⟨0⟩)).addParam "q" (.object ⟨0⟩)).addLocal "same"
      .boolean).push (.literal ⟨2⟩ (.int 0))).push (.branch ⟨.ne, ⟨0⟩, ⟨1⟩⟩ 3)).push
      (.binary ⟨2⟩ ⟨.eq, ⟨0⟩, ⟨1⟩⟩)).push (.switch ⟨2⟩ [(1, 5)] 4)).push (.ret none)).push
      (.ret none)))
  exact ⟨_, hmain.setMain ⟨0⟩, by decide +kernel⟩

/-- The method runs into the last statement when its arguments are the same object, and the report
says that nothing reaches it. -/
theorem comparing_unreachable : comparing.Built ∧ comparing.Scoped ∧
    Arithmetic.identity.AnswersTruth ∧ ∃ d report reached ρ, comparing.method ⟨0⟩ = .ok d ∧
      comparing.deadCode .workList ⟨0⟩ = .ok report ∧
      comparing.visited .workList ⟨0⟩ = .ok reached ∧
      Runs .identity comparing ⟨0⟩ ⟨⟨0⟩, 5, ρ⟩ ∧ d.point 5 ∉ reached ∧
      report.dead = [d.point 5] ∧ report.unreachable = 1 := by
  refine ⟨comparing_built, by decide, Arithmetic.identity_answersTruth, ?_⟩
  obtain ⟨report, hr, hdead, hcount⟩ : ∃ report, comparing.deadCode .workList ⟨0⟩ = .ok report ∧
      report.dead = [⟨6⟩] ∧ report.unreachable = 1 := by
    have hrun : (fun r => (r.dead, r.unreachable)) <$> comparing.deadCode .workList ⟨0⟩ =
        .ok ([⟨6⟩], 1) := by decide +kernel
    obtain ⟨report, hr, he⟩ := Outcome.map_eq_ok.1 hrun
    exact ⟨report, hr, congrArg Prod.fst he, congrArg Prod.snd he⟩
  obtain ⟨reached, hv, hnot⟩ : ∃ reached, comparing.visited .workList ⟨0⟩ = .ok reached ∧
      ⟨6⟩ ∉ reached := by
    have hrun : (fun l => decide (⟨6⟩ ∈ l)) <$> comparing.visited .workList ⟨0⟩ = .ok false := by
      decide +kernel
    obtain ⟨reached, hv, hnot⟩ := Outcome.map_eq_ok.1 hrun
    exact ⟨reached, hv, of_decide_eq_false hnot⟩
  -- both arguments are the object 7
  let ρ : Env := fun v => if v = ⟨2⟩ then none else some (.reference (some 7))
  have hstart : Runs .identity comparing ⟨0⟩ ⟨⟨0⟩, 0, ρ⟩ := by
    refine .start rfl fun v hv hint => absurd (if_pos ?_) hv
    have hints : ∀ i < 3, comparing.isIntVar ⟨i⟩ = .ok true → i = 2 := by decide
    exact congrArg Id.mk (hints v.index (index_lt_of_isIntVar hint) hint)
  have hliteral := hstart.own (i := .literal ⟨2⟩ (.int 0)) rfl (by decide) rfl (by decide)
    fun _ => rfl
  have hbranch := hliteral.own (i := .branch ⟨.ne, ⟨0⟩, ⟨1⟩⟩ 3) rfl (by decide) rfl (by decide)
    fun _ => rfl
  have hcompare := hbranch.own (i := .binary ⟨2⟩ ⟨.eq, ⟨0⟩, ⟨1⟩⟩) rfl (by decide) rfl (by decide)
    fun _ => rfl
  have hswitch := hcompare.own (i := .switch ⟨2⟩ [(1, 5)] 4) rfl (by decide) rfl (by decide)
    fun _ => rfl
  exact ⟨_, report, reached, _, rfl, hr, hv, hswitch, hnot, hdead, hcount⟩

end Program

end ProgramFlow
