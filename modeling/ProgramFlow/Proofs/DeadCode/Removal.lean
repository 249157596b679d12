import ProgramFlow.Proofs.Dataflow.Analyses
import ProgramFlow.Proofs.DeadCode.Feasibility
/-!
Removing the dead code of a method, all at once, does not change what it does: a run executes the
same other statements, each reading the same, and ends in the same way. The two runs agree on what
is live.
-/
namespace ProgramFlow

namespace Machine

/-- A statement that a run executes, with what it reads. -/
structure Event where
  site : StmtId
  read : List (Option Datum)
  deriving DecidableEq, Repr

inductive Stop
  | running (position : Nat)
  | returned
  | trapped (site : StmtId)
  deriving DecidableEq, Repr

structure Trace where
  events : List Event
  stop : Stop
  deriving DecidableEq, Repr

namespace Trace

def cons (e : Event) (t : Trace) : Trace := { t with events := e :: t.events }

/-- The trace without the events at these statements. -/
def hide (sites : List StmtId) (t : Trace) : Trace :=
  { t with events := t.events.filter (·.site ∉ sites) }

theorem hide_cons_of_mem {sites : List StmtId} {e : Event} (h : e.site ∈ sites) (t : Trace) :
    (t.cons e).hide sites = t.hide sites := by
  simp [hide, cons, h]

theorem hide_cons_of_notMem {sites : List StmtId} {e : Event} (h : e.site ∉ sites) (t : Trace) :
    (t.cons e).hide sites = (t.hide sites).cons e := by
  simp [hide, cons, h]

end Trace

/-- The instruction at a position; there is none at the exit. -/
def instrAt? (p : Program) (d : MethodDecl) (k : Nat) : Option Instr :=
  (d.stmtAt? k).bind fun s => (p.instr s).toOption

/-- Up to so many steps of the run of a method. Each statement that asks takes the next answer. -/
def trace (A : Arithmetic) (p : Program) (d : MethodDecl) (answers : Nat → Answer) :
    (steps asked position : Nat) → Env → Trace
  | 0, _, k, _ => ⟨[], .running k⟩
  | n + 1, asked, k, ρ =>
    match instrAt? p d k with
    | none => ⟨[], .returned⟩
    | some i =>
      let event : Event := ⟨d.stmtAt k, i.uses.map ρ⟩
      match A.result ρ (answers asked) i with
      | .trap => ⟨[event], .trapped (d.stmtAt k)⟩
      | .done x =>
        (trace A p d answers n (if asks i then asked + 1 else asked) (A.next d ρ k i)
          (ρ.assign i.assigned? x)).cons event

theorem instrAt?_eq_some_iff {p : Program} {d : MethodDecl} {k : Nat} {i : Instr} :
    instrAt? p d k = some i ↔ k < d.length ∧ p.instr (d.stmtAt k) = .ok i := by
  have hok : ∀ s, (p.instr s).toOption = some i ↔ p.instr s = .ok i := by
    intro s
    cases p.instr s <;> simp [Except.toOption]
  simp only [instrAt?, Option.bind_eq_some_iff, MethodDecl.stmtAt?, Option.ite_none_right_eq_some,
    Option.some.injEq, hok]
  constructor
  · rintro ⟨s, ⟨hk, rfl⟩, hi⟩
    exact ⟨hk, hi⟩
  · rintro ⟨hk, hi⟩
    exact ⟨_, ⟨hk, rfl⟩, hi⟩

theorem asks_of_pureAssigned? {i : Instr} {v : VarId} (h : i.pureAssigned? = some v) :
    asks i = false := by
  cases i <;> simp_all [Instr.pureAssigned?, asks]

end Machine

namespace Program

open Machine

variable {p : Program}

/-- The program in which these statements do nothing. -/
def without (p : Program) (sites : List StmtId) : Program :=
  { p with stmts := p.stmts.mapIdx fun i x => if ⟨i⟩ ∈ sites then { x with instr := .nop } else x }

theorem instr_without (sites : List StmtId) {s : StmtId} {i : Instr} (h : p.instr s = .ok i) :
    (p.without sites).instr s = .ok (if s ∈ sites then .nop else i) := by
  obtain ⟨x, hx, rfl⟩ := instr_eq_ok.1 h
  let y : Stmt := if s ∈ sites then { x with instr := .nop } else x
  have hy : (p.without sites).stmt s = .ok y := by
    apply fetch_eq_ok_iff.2
    simp only [without, Array.getElem?_mapIdx, fetch_eq_ok_iff.1 hx, Option.map_some, y]
  refine instr_eq_ok.2 ⟨y, hy, ?_⟩
  simp only [y]
  split <;> rfl

theorem instrAt?_without (sites : List StmtId) {d : MethodDecl} {k : Nat} {i : Instr}
    (h : instrAt? p d k = some i) :
    instrAt? (p.without sites) d k = some (if d.stmtAt k ∈ sites then .nop else i) := by
  obtain ⟨hk, hi⟩ := instrAt?_eq_some_iff.1 h
  exact instrAt?_eq_some_iff.2 ⟨hk, instr_without sites hi⟩

/-- The statement only assigns a variable, and that is not live after it. -/
def Useless (p : Program) (e : Evidence) (n : StmtId) : Prop :=
  ∃ i v, p.instr n = .ok i ∧ i.pureAssigned? = some v ∧ v ∉ e.liveAt n

theorem isUseless_eq_ok {e : Evidence} {n : StmtId} {b : Bool} (h : p.isUseless e n = .ok b) :
    b = true ↔ p.Useless e n := by
  obtain ⟨i, hi, h⟩ := Outcome.bind_eq_ok.1 h
  cases h
  cases hv : i.pureAssigned? <;> simp [Useless, hi, hv]

/-- A report counts and lists what is not reached and what is reached and useless. -/
theorem detectDeadCode_eq_ok {e : Evidence} {report : DeadCodeReport}
    (h : p.detectDeadCode e = .ok report) : ∃ (reached useless : List StmtId) (d : MethodDecl),
      p.reachedNodes e = .ok reached ∧ p.method e.graph.method = .ok d ∧ useless.Sublist reached ∧
      (∀ n, n ∈ useless ↔ n ∈ reached ∧ p.Useless e n) ∧
      report = ⟨e.graph.method, d.body.filter fun n => n ∉ reached ∨ n ∈ useless,
        (d.body.filter (· ∉ reached)).length, useless.length⟩ := by
  obtain ⟨reached, hreached, h⟩ := Outcome.bind_eq_ok.1 h
  obtain ⟨d, hd, h⟩ := Outcome.bind_eq_ok.1 h
  obtain ⟨useless, huseless, h⟩ := Outcome.bind_eq_ok.1 h
  cases h
  obtain ⟨test, htest, rfl⟩ := Outcome.filterM_eq_ok.1 huseless
  refine ⟨reached, _, d, hreached, hd, List.filter_sublist, fun n => ?_, rfl⟩
  rw [List.mem_filter]
  exact and_congr_right fun hn => isUseless_eq_ok (htest n hn)

/-- A dead statement that is reached is useless. -/
theorem useless_of_detectDeadCode {e : Evidence} {report : DeadCodeReport}
    (h : p.detectDeadCode e = .ok report) : ∃ reached, p.reachedNodes e = .ok reached ∧
      ∀ n ∈ report.dead, n ∈ reached → p.Useless e n := by
  obtain ⟨reached, useless, d, hreached, -, -, hmem, rfl⟩ := detectDeadCode_eq_ok h
  refine ⟨reached, hreached, fun n hn hr => ?_⟩
  have hdead := of_decide_eq_true (List.mem_filter.1 hn).2
  exact ((hmem n).1 (hdead.resolve_left (not_not.2 hr))).2

variable {m : MethodId} {d : MethodDecl} {g : ControlFlowGraph}

section Live

variable {t : Dataflow.Table LiveSet}

theorem Layout.live_solves_of_solve_eq_ok (hl : p.Layout) (hg : p.controlFlow m = .ok g)
    {schedule : Dataflow.Schedule} (ht : p.liveVariables.solve g schedule = .ok t) :
    p.liveVariables.Solves g t := by
  obtain ⟨d, hd, -, -, -, hnodes, hclosed⟩ := hl.of_controlFlow hg
  obtain ⟨u, hu, hleast⟩ := (hl.liveVariables_monotonic hg).solve_eq_ok hclosed
    (hnodes ▸ d.nodup_nodes)
  cases ht.symm.trans (hu schedule)
  exact hleast.1

/-- The variables that are live before the statement of a position have the same values. -/
def AgreeAt (t : Dataflow.Table LiveSet) (d : MethodDecl) (k : Nat) (ρ ρ' : Env) : Prop :=
  ∀ live, t.leaving.find? (d.point k) = some live → ∀ v ∈ live, ρ v = ρ' v

variable (hl : p.Layout) (hd : p.method m = .ok d) (hg : p.controlFlow m = .ok g) {k : Nat}
  (hk : k < d.length)
include hl hd hg hk

theorem Layout.stmtAt_mem_order : d.stmtAt k ∈ p.liveVariables.direction.order g := by
  obtain ⟨d', hd', -, -, hexit, hnodes, -⟩ := hl.of_controlFlow hg
  cases hd.symm.trans hd'
  apply Dataflow.Direction.mem_order.2
  refine ⟨hnodes ▸ MethodDecl.stmtAt_mem_nodes hk, ?_⟩
  simp only [liveVariables, Dataflow.Direction.boundaryNode, hexit]
  intro he
  exact d.exit_not_mem_body (he ▸ MethodDecl.mem_body.2 ⟨k, hk, rfl⟩)

variable (ht : p.liveVariables.Solves g t) {i : Instr} (hi : p.instr (d.stmtAt k) = .ok i)
include ht hi

/-- What is live before a statement: what it reads, and what is live after it and not assigned
there. -/
theorem Layout.exists_live : ∃ after, t.arriving.find? (d.stmtAt k) = some after ∧
    t.leaving.find? (d.stmtAt k) = some (i.liveBefore after) := by
  obtain ⟨after, before, hafter, hbefore, hleave⟩ := ht.leaving _ (hl.stmtAt_mem_order hd hg hk)
  obtain ⟨i', hi', hbefore⟩ := Outcome.map_eq_ok.1 hbefore
  cases hi.symm.trans hi'
  exact ⟨after, hafter, hbefore ▸ hleave⟩

variable {ρ ρ' : Env} {after : LiveSet} (hafter : t.arriving.find? (d.stmtAt k) = some after)
include hafter

/-- Environments that agree on what is live after a statement agree where control goes on. -/
theorem Layout.agreeAt_next (A : Arithmetic) (σ : Env) (h : ∀ v ∈ after, ρ v = ρ' v) :
    AgreeAt t d (A.next d σ k i) ρ ρ' := by
  intro live hlive v hv
  have hedge := (indexed_of_controlFlow hg).target_mem_succs (mem_edges_next hg hd hk hi A σ)
  obtain ⟨after', hafter', hle⟩ := ht.le_arriving hedge (hl.stmtAt_mem_order hd hg hk) hlive
  cases hafter.symm.trans hafter'
  exact h v (SortedSet.le_iff.1 hle v hv)

end Live

section Removal

variable {A : Arithmetic} {schedule : Dataflow.Schedule} {facts : Dataflow.Table Fact}
  {lives : Dataflow.Table LiveSet} {reached : List StmtId}

/-- What holds between the runs with and without the dead code: both stand at one position, which is
reached, the facts describe the original, and the two agree on what is live. -/
structure Tied (p : Program) (facts : Dataflow.Table Fact) (lives : Dataflow.Table LiveSet)
    (d : MethodDecl) (reached : List StmtId) (m : MethodId) (k : Nat) (ρ ρ' : Env) : Prop where
  describes : p.DescribesAt facts d ⟨m, k, ρ⟩
  reaches : d.point k ∈ reached
  agree : AgreeAt lives d k ρ ρ'

/-- The solutions that dead code detection has found for the method, and its report. -/
structure Detected (p : Program) (m : MethodId) (d : MethodDecl) (g : ControlFlowGraph)
    (facts : Dataflow.Table Fact) (lives : Dataflow.Table LiveSet) (reached dead : List StmtId) :
    Prop where
  layout : p.Layout
  method : p.method m = .ok d
  graph : p.controlFlow m = .ok g
  operands : ∀ s ∈ d.body, ∀ i, p.instr s = .ok i → p.IntOperands i
  constants : p.constantPropagation.Solves g facts
  ints : ∀ {n f}, facts.arriving.find? n = some f → p.IntsOnly f
  live : p.liveVariables.Solves g lives
  reaches : p.reachedNodes ⟨g, facts.arriving, lives.arriving⟩ = .ok reached
  useless : ∀ n ∈ dead, n ∈ reached → ∃ i v, p.instr n = .ok i ∧ i.pureAssigned? = some v ∧
    ∀ after, lives.arriving.find? n = some after → v ∉ after

theorem Layout.exists_detected (hl : p.Layout) (hd : p.method m = .ok d)
    (hops : ∀ s ∈ d.body, ∀ i, p.instr s = .ok i → p.IntOperands i) {report : DeadCodeReport}
    (hr : p.deadCode schedule m = .ok report) : ∃ g facts lives reached,
      p.Detected m d g facts lives reached report.dead := by
  obtain ⟨g, hg, hr⟩ := Outcome.bind_eq_ok.1 hr
  obtain ⟨facts, hc, hr⟩ := Outcome.bind_eq_ok.1 hr
  obtain ⟨lives, hlive, hr⟩ := Outcome.bind_eq_ok.1 hr
  obtain ⟨reached, hreached, huseless⟩ := useless_of_detectDeadCode hr
  refine ⟨g, facts, lives, reached, hl, hd, hg, hops, hl.solves_of_solve_eq_ok hg hc,
    hl.intsOnly_of_solve_eq_ok hg hc, hl.live_solves_of_solve_eq_ok hg hlive, hreached, ?_⟩
  intro n hn hnr
  obtain ⟨i, v, hi, hv, hlive⟩ := huseless n hn hnr
  refine ⟨i, v, hi, hv, fun after hafter => ?_⟩
  have hat : Evidence.liveAt ⟨g, facts.arriving, lives.arriving⟩ n = after := by
    simp only [Evidence.liveAt, hafter, Option.getD_some]
  exact hat ▸ hlive

namespace Detected

variable {dead : List StmtId} (h : p.Detected m d g facts lives reached dead)
include h

theorem tied_start {ρ : Env} (hρ : Starts p d ρ) : p.Tied facts lives d reached m 0 ρ ρ where
  describes := h.layout.describesAt_start h.method h.graph h.constants hρ
  reaches := by
    obtain ⟨d', hd', -, hentry, -⟩ := h.layout.of_controlFlow h.graph
    cases h.method.symm.trans hd'
    have hstart := (reaching_of_reachedNodes h.reaches).entry
    have hi : p.instr d.entry = .ok .entry := instr_eq_ok.2 ⟨_, h.layout.entry h.method, rfl⟩
    have hedge : (⟨.entry, d.entry, d.point 0⟩ : Edge) ∈ g.outEdges d.entry :=
      (indexed_of_controlFlow h.graph).mem_outEdges.2 ⟨mem_edges_entry h.graph h.method, rfl⟩
    exact mem_reached_of_mem_feasibleEdges h.reaches (hentry ▸ hstart) hi hedge
  agree _ _ _ _ := rfl

variable {k : Nat} {ρ ρ' : Env} (ht : p.Tied facts lives d reached m k ρ ρ')
  (hk : k < d.length) {i : Instr} (hi : p.instr (d.stmtAt k) = .ok i)
include ht hk hi

/-- A statement that is kept reads the same in both runs. -/
theorem eq_of_mem_uses {v : VarId} (hv : v ∈ i.uses) : ρ v = ρ' v := by
  obtain ⟨after, -, hbefore⟩ := h.layout.exists_live h.method h.graph hk h.live hi
  apply ht.agree (i.liveBefore after)
  · rw [MethodDecl.point_of_lt hk, hbefore]
  · exact Instr.mem_liveBefore.2 (.inl hv)

variable (hread : ∀ v ∈ i.uses, ρ v ≠ none) {answer : Answer} {x : Option Datum}
  (hx : A.result ρ answer i = .done x)
include hread hx

/-- The original takes a step; the other run keeps up if it agrees on what is live afterwards. -/
theorem tied_next {ρ₁ : Env} (hagree : ∀ after, lives.arriving.find? (d.stmtAt k) = some after →
      ∀ v ∈ after, ρ.assign i.assigned? x v = ρ₁ v) :
    p.Tied facts lives d reached m (A.next d ρ k i) (ρ.assign i.assigned? x) ρ₁ where
  describes := (h.layout.describesAt_step h.method h.graph h.constants h.operands rfl ht.describes
    (.step h.method hk hi hread hx)).2
  reaches := by
    obtain ⟨f, hf, hdesc⟩ := ht.describes
    have hat : Evidence.factAt ⟨g, facts.arriving, lives.arriving⟩ (d.stmtAt k) = f := by
      rw [MethodDecl.point_of_lt hk] at hf
      simp only [Evidence.factAt, hf, Option.getD_some]
    have hreached := ht.reaches
    rw [MethodDecl.point_of_lt hk] at hreached
    have hedge := hdesc.mem_feasibleEdges (A := A) h.graph h.method hk hi (h.ints hf) hread
    exact mem_reached_of_mem_feasibleEdges h.reaches hreached hi (hat ▸ hedge)
  agree := by
    obtain ⟨after, hafter, -⟩ := h.layout.exists_live h.method h.graph hk h.live hi
    exact h.layout.agreeAt_next h.method h.graph hk h.live hi hafter A ρ (hagree after hafter)

/-- Both runs execute a statement that is kept. -/
theorem tied_kept : p.Tied facts lives d reached m (A.next d ρ k i) (ρ.assign i.assigned? x)
    (ρ'.assign i.assigned? x) := by
  apply h.tied_next ht hk hi hread hx
  intro after hafter v hv
  obtain ⟨after', hafter', hbefore⟩ := h.layout.exists_live h.method h.graph hk h.live hi
  cases hafter.symm.trans hafter'
  have hkeep : i.assigned? ≠ some v → ρ v = ρ' v := by
    intro hne
    apply ht.agree (i.liveBefore after)
    · rw [MethodDecl.point_of_lt hk, hbefore]
    · exact Instr.mem_liveBefore.2 (.inr ⟨hv, hne⟩)
  cases hlhs : i.assigned? with
  | none =>
    apply hkeep
    rw [hlhs]
    rintro ⟨⟩
  | some w =>
    rw [Env.assign_some, Env.assign_some]
    split
    · rfl
    · next hne =>
      apply hkeep
      rw [hlhs]
      rintro ⟨⟩
      exact hne rfl

/-- Only the original executes a statement that has been removed. -/
theorem tied_removed {v : VarId} (hv : i.pureAssigned? = some v)
    (hdead : ∀ after, lives.arriving.find? (d.stmtAt k) = some after → v ∉ after) :
    p.Tied facts lives d reached m (k + 1) (ρ.assign i.assigned? x) ρ' := by
  have hlhs := Instr.assigned?_of_pureAssigned? hv
  have hnext : A.next d ρ k i = k + 1 := Arithmetic.next_of_pureAssigned? hv
  rw [← hnext]
  apply h.tied_next ht hk hi hread hx
  intro after hafter w hw
  obtain ⟨after', hafter', hbefore⟩ := h.layout.exists_live h.method h.graph hk h.live hi
  cases hafter.symm.trans hafter'
  have hne : w ≠ v := fun he => hdead after hafter (he ▸ hw)
  rw [hlhs, Env.assign_some, if_neg hne]
  apply ht.agree (i.liveBefore after)
  · rw [MethodDecl.point_of_lt hk, hbefore]
  · apply Instr.mem_liveBefore.2
    refine .inr ⟨hw, ?_⟩
    rw [hlhs]
    rintro ⟨⟩
    exact hne rfl

end Detected

/-- From tied positions on, the runs with and without the dead code have the same trace apart from
the dead code. -/
theorem Detected.hide_trace_eq {dead : List StmtId}
    (h : p.Detected m d g facts lives reached dead) (answers : Nat → Answer) {n asked k : Nat}
    {ρ ρ' : Env} (ht : p.Tied facts lives d reached m k ρ ρ')
    (hread : ∀ e ∈ (trace A p d answers n asked k ρ).events, none ∉ e.read) :
    (trace A (p.without dead) d answers n asked k ρ').hide dead =
      (trace A p d answers n asked k ρ).hide dead := by
  induction n generalizing asked k ρ ρ' with
  | zero => rfl
  | succ n ih =>
    unfold trace at hread ⊢
    cases hi : instrAt? p d k with
    | none =>
      have hk : d.length ≤ k := by
        by_contra hk
        obtain ⟨i, hx, -⟩ := h.layout.body h.method (Nat.not_le.1 hk)
        have hsome := instrAt?_eq_some_iff.2 ⟨Nat.not_le.1 hk, instr_eq_ok.2 ⟨_, hx, rfl⟩⟩
        cases hi.symm.trans hsome
      have hi' : instrAt? (p.without dead) d k = none := by
        simp [instrAt?, MethodDecl.stmtAt?, Nat.not_lt.2 hk]
      simp only [hi']
    | some i =>
      obtain ⟨hk, hi₀⟩ := instrAt?_eq_some_iff.1 hi
      simp only [hi, instrAt?_without dead hi] at hread ⊢
      have hassigned : none ∉ i.uses.map ρ → ∀ v ∈ i.uses, ρ v ≠ none := by
        intro hnone v hv hρ
        exact hnone (List.mem_map.2 ⟨v, hv, hρ⟩)
      by_cases hdead : d.stmtAt k ∈ dead
      · -- the original executes a useless assignment, the other run passes it
        have hreached : d.stmtAt k ∈ reached := MethodDecl.point_of_lt hk ▸ ht.reaches
        obtain ⟨j, v, hj, hv, hlive⟩ := h.useless _ hdead hreached
        cases hi₀.symm.trans hj
        obtain ⟨x, hx⟩ := Arithmetic.result_of_pureAssigned? (A := A) (ρ := ρ) hv (answers asked)
        simp only [hx, asks_of_pureAssigned? hv, Arithmetic.next_of_pureAssigned? hv,
          Bool.false_eq_true, if_false] at hread ⊢
        have hread₀ := hassigned (hread _ (.head _))
        rw [if_pos hdead, Trace.hide_cons_of_mem hdead]
        simp only [Arithmetic.result, asks, Bool.false_eq_true, if_false, Arithmetic.next,
          Instr.assigned?, Env.assign]
        rw [Trace.hide_cons_of_mem hdead]
        exact ih (h.tied_removed ht hk hi₀ hread₀ hx hv hlive) fun e he => hread e (.tail _ he)
      · rw [if_neg hdead]
        have huses : ∀ v ∈ i.uses, ρ' v = ρ v := fun v hv => (h.eq_of_mem_uses ht hk hi₀ hv).symm
        rw [Arithmetic.result_congr huses, Arithmetic.next_congr huses, List.map_congr_left huses]
        cases hx : A.result ρ (answers asked) i with
        | trap => rfl
        | done x =>
          simp only [hx] at hread
          have hread₀ := hassigned (hread _ (.head _))
          rw [Trace.hide_cons_of_notMem hdead, Trace.hide_cons_of_notMem hdead]
          rw [ih (h.tied_kept ht hk hi₀ hread₀ hx) fun e he => hread e (.tail _ he)]

/-- A run of a method and the run without its dead code, from the same variables and with the same
answers, execute the same other statements with the same reads and stop in the same way. -/
theorem Built.hide_trace_without (hp : p.Built) (hd : p.method m = .ok d)
    (hops : ∀ s ∈ d.body, ∀ i, p.instr s = .ok i → p.IntOperands i) {report : DeadCodeReport}
    (hr : p.deadCode schedule m = .ok report) {ρ : Env} (hρ : Starts p d ρ)
    (answers : Nat → Answer) (steps : Nat)
    (hread : ∀ e ∈ (trace A p d answers steps 0 0 ρ).events, none ∉ e.read) :
    (trace A (p.without report.dead) d answers steps 0 0 ρ).hide report.dead =
      (trace A p d answers steps 0 0 ρ).hide report.dead := by
  obtain ⟨g, facts, lives, reached, h⟩ := hp.layout.exists_detected hd hops hr
  exact h.hide_trace_eq answers (h.tied_start hρ) hread

end Removal

/-- A method with a copy that nobody reads and an assignment behind a condition that fails. -/
def wasteful : Program where
  classes := #[⟨"Main", none, false, [("run", ⟨0⟩)]⟩]
  fields := #[]
  methods := #[⟨"run", ⟨0⟩, true, false, [⟨0⟩], none, [⟨0⟩], 0, 6⟩]
  vars := #[⟨"n", .int, ⟨0⟩⟩, ⟨"a", .int, ⟨0⟩⟩, ⟨"b", .int, ⟨0⟩⟩]
  stmts := #[
    ⟨⟨0⟩, none, .entry⟩,
    ⟨⟨0⟩, some 0, .literal ⟨1⟩ (.int 1)⟩,
    ⟨⟨0⟩, some 1, .branch ⟨.lt, ⟨1⟩, ⟨1⟩⟩ 4⟩,
    ⟨⟨0⟩, some 2, .copy ⟨2⟩ ⟨1⟩⟩,
    ⟨⟨0⟩, some 3, .goto 5⟩,
    ⟨⟨0⟩, some 4, .literal ⟨1⟩ (.int 2)⟩,
    ⟨⟨0⟩, some 5, .ret (some ⟨0⟩)⟩,
    ⟨⟨0⟩, none, .exit⟩]
  main := some ⟨0⟩

open MethodBuilder in
theorem wasteful_built : wasteful.Built := by
  have hmain := (Builder.Assembled.empty.addClass "Main" none).finish ⟨0⟩ "run" true rfl
    (((((((((Edits.refl.addParam "n" .int).addLocal "a" .int).addLocal "b" .int).push
      (.literal ⟨1⟩ (.int 1))).push (.branch ⟨.lt, ⟨1⟩, ⟨1⟩⟩ 4)).push (.copy ⟨2⟩ ⟨1⟩)).push
      (.goto 5)).push (.literal ⟨1⟩ (.int 2))).push (.ret (some ⟨0⟩)))
  exact ⟨_, hmain.setMain ⟨0⟩, by decide +kernel⟩

/-- Both dead statements of the method are removed, and its run returns what it did. -/
theorem Built.hide_trace_without_wasteful : ∃ d report, wasteful.method ⟨0⟩ = .ok d ∧
    wasteful.deadCode .workList ⟨0⟩ = .ok report ∧ report.dead = [⟨3⟩, ⟨5⟩] ∧
      ∀ answers, (trace default (wasteful.without [⟨3⟩, ⟨5⟩]) d answers 6 0 0
          fun v => if v = ⟨0⟩ then some (.int 9) else none).hide [⟨3⟩, ⟨5⟩] =
        ⟨[⟨⟨1⟩, []⟩, ⟨⟨2⟩, [some (.int 1), some (.int 1)]⟩, ⟨⟨4⟩, []⟩, ⟨⟨6⟩, [some (.int 9)]⟩],
          .returned⟩ := by
  obtain ⟨report, hr, hdead⟩ : ∃ report, wasteful.deadCode .workList ⟨0⟩ = .ok report ∧
      report.dead = [⟨3⟩, ⟨5⟩] := by
    have hdead : DeadCodeReport.dead <$> wasteful.deadCode .workList ⟨0⟩ = .ok [⟨3⟩, ⟨5⟩] := by
      decide +kernel
    exact Outcome.map_eq_ok.1 hdead
  have hops : ∀ s i, wasteful.instr s = .ok i → wasteful.IntOperands i :=
    forall_instr.2 (by decide)
  refine ⟨_, report, rfl, hr, hdead, fun answers => ?_⟩
  have hsame := wasteful_built.hide_trace_without (A := default) (m := ⟨0⟩) rfl (fun s _ => hops s)
    hr (ρ := fun v => if v = ⟨0⟩ then some (.int 9) else none) ?_ answers 6 ?_
  · rw [hdead] at hsame
    exact hsame
  · intro v hv _
    by_contra hne
    apply hv
    apply if_neg
    rintro rfl
    exact hne (.head _)
  · suffices ∀ e ∈ ([⟨⟨1⟩, []⟩, ⟨⟨2⟩, [some (.int 1), some (.int 1)]⟩, ⟨⟨3⟩, [some (.int 1)]⟩,
        ⟨⟨4⟩, []⟩, ⟨⟨6⟩, [some (.int 9)]⟩] : List Event), none ∉ e.read from this
    decide

end Program

end ProgramFlow
