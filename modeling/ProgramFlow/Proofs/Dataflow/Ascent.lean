import ProgramFlow.Proofs.Dataflow.Analyses
/-!
Runs of the solver in one method, one visit after the other. Facts only rise and stay below every
solution, also if the run stops at a transfer that fails, and a node that does not wait on the work
list satisfies its equations.
-/
namespace ProgramFlow

namespace Dataflow.Problem

section Runs

variable {φ : Type} [DecidableEq φ] (P : Problem φ) (g : ControlFlowGraph)

/-- The state in which a schedule starts. -/
def startState (t : Table φ) : Schedule → State φ
  | .workList => { table := t, queue := enqueue [] (P.direction.order g) }
  | .sweeps => { table := t }

/-- One iteration of a schedule. -/
def stepOf : Schedule → State φ → Progress (State φ) (Outcome (State φ))
  | .workList => P.workStep g
  | .sweeps => P.sweepStep g

/-- The states of a run between its iterations. -/
inductive Reached (schedule : Schedule) : State φ → Prop
  | start {t} (h : P.initial g = .ok t) : Reached schedule (P.startState g t schedule)
  | step {s s'} (h : Reached schedule s) (hs : P.stepOf g schedule s = .running s') :
    Reached schedule s'

/-- A run visits the node next, and these are the facts: the node is the first one on the work list,
or the sweep that is under way has come to it. -/
inductive Visiting : Schedule → Table φ → StmtId → Prop
  | workList {s n q} (h : P.Reached g .workList s) (hq : s.queue = n :: q) :
    Visiting .workList s.table n
  | sweeps {s s' l n l' any} (h : P.Reached g .sweeps s) (ho : P.direction.order g = l ++ n :: l')
    (hs : P.sweep g { s with counters :=
      { s.counters with iterations := s.counters.iterations + 1 } } l = .ok ⟨any, s'⟩) :
    Visiting .sweeps s'.table n

variable {P g}

theorem solveCounting_eq (schedule : Schedule) : P.solveCounting g schedule = do
    let t ← P.initial g
    let s ← P.run g (P.stepOf g schedule) (P.startState g t schedule)
    return (s.table, s.counters) := by
  cases schedule <;> rfl

/-- What the solver finds is the table with which its run ends. -/
theorem exists_reached_of_solve {schedule : Schedule} {t : Table φ}
    (h : P.solve g schedule = .ok t) :
    ∃ s r, P.Reached g schedule s ∧ P.stepOf g schedule s = .finished (.ok r) ∧ r.table = t := by
  obtain ⟨a, hsolve, ha⟩ := Outcome.map_eq_ok.1 h
  rw [solveCounting_eq] at hsolve
  obtain ⟨t₀, hinit, hsolve⟩ := Outcome.bind_eq_ok.1 hsolve
  obtain ⟨r, hr, hsolve⟩ := Outcome.bind_eq_ok.1 hsolve
  cases hsolve
  unfold run at hr
  split at hr
  · next r' hr' =>
    subst hr
    obtain ⟨s, hs, hend⟩ := Progress.exists_last (P := P.Reached g schedule) (fun _ _ => .step)
      (.start hinit) hr'
    exact ⟨s, r, hs, hend, ha⟩
  · cases hr

theorem workStep_eq_running {s s' : State φ} (h : P.workStep g s = .running s') :
    ∃ n q c, s.queue = n :: q ∧ P.visit g s.table n = .ok c ∧ s'.table = c.value ∧
      s'.queue = if c.changed then
        enqueue q ((P.direction.sinks g n).filter (· ≠ P.direction.boundaryNode g)) else q := by
  cases hq : s.queue with
  | nil => simp only [workStep, hq, reduceCtorEq] at h
  | cons n q =>
    simp only [workStep, hq] at h
    split at h
    · cases h
    · next c u hv =>
      cases h
      exact ⟨n, q, ⟨c, u⟩, rfl, hv, rfl, rfl⟩

theorem sweepStep_eq_running {s s' : State φ} (h : P.sweepStep g s = .running s') :
    P.sweep g { s with counters := { s.counters with iterations := s.counters.iterations + 1 } }
      (P.direction.order g) = .ok ⟨true, s'⟩ := by
  simp only [sweepStep] at h
  split at h
  · cases h
  · next hs =>
    cases h
    exact hs
  · cases h

/-- What every visit keeps, a sweep keeps. -/
theorem sweep_keeps {I : Table φ → Prop} {l : List StmtId}
    (h : ∀ t, I t → ∀ n ∈ l, ∀ c, P.visit g t n = .ok c → I c.value) {s : State φ}
    {r : Change (State φ)} (hs : I s.table) (hr : P.sweep g s l = .ok r) : I r.value.table := by
  refine Outcome.foldlM_keeps (Q := fun r => I r.value.table) ?_ hs hr
  intro r hr n hn r' hstep
  obtain ⟨c, hc, hstep⟩ := Outcome.bind_eq_ok.1 hstep
  cases hstep
  exact h _ hr n hn c hc

end Runs

section Equations

variable {φ : Type} [PartialOrder φ] [OrderBot φ] (P : Problem φ) (g : ControlFlowGraph)

/-- The node satisfies its equations: the least upper bound of what leaves its sources arrives at it,
and the transfer of that leaves it. -/
def Satisfied (t : Table φ) (n : StmtId) : Prop :=
  ∃ x y, t.arriving.find? n = some x ∧
    IsLUB {z | ∃ s ∈ P.direction.sources g n, t.leaving.find? s = some z} x ∧
    P.transfer n x = .ok y ∧ t.leaving.find? n = some y

/-- The problem with the least fact in place of a transfer that fails. -/
def completed : Problem φ :=
  { P with transfer := fun n x => .ok ((P.transfer n x).toOption.getD ⊥) }

/-- What a visit makes of a table: the facts of the node are computed anew and do not fall, none
exceeds a solution, of the problem or of the completed one, and a change is reported if another
fact leaves the node. -/
structure Raises (t : Table φ) (n : StmtId) (c : Change (Table φ)) : Prop where
  covers : t.Covers g.nodes ∧ c.value.Covers g.nodes
  rises : t ≤ c.value
  below : ∀ u, P.Solves g u ∨ P.completed.Solves g u → c.value ≤ u
  computed : ∃ x y, c.value.arriving.find? n = some x ∧
    IsLUB {z | ∃ s ∈ P.direction.sources g n, t.leaving.find? s = some z} x ∧
    P.transfer n x = .ok y ∧ c.value.leaving.find? n = some y
  changed : c.changed = true ↔ c.value.leaving.find? n ≠ t.leaving.find? n

/-- In a run each visit raises facts, or it ends the run at a node whose transfer never succeeds, and
between the iterations of a work list the nodes that are not on it satisfy their equations. -/
structure Ascends [DecidableEq φ] : Prop where
  starts : ∃ t, P.initial g = .ok t
  visits : ∀ {schedule t n}, P.Visiting g schedule t n →
    (∃ c, P.visit g t n = .ok c ∧ P.Raises g t n c) ∨
      ∃ e, P.visit g t n = .error e ∧ ∀ x, P.transfer n x = .error e
  settled : ∀ {s n}, P.Reached g .workList s → n ∈ P.direction.order g → n ∉ s.queue →
    P.Satisfied g s.table n
  answers : ∀ {schedule t}, P.solve g schedule = .ok t →
    ∃ s r, P.Reached g schedule s ∧ P.stepOf g schedule s = .finished (.ok r) ∧ r.table = t

end Equations

variable {φ : Type} [SemilatticeSup φ] [OrderBot φ] {P : Problem φ} {g : ControlFlowGraph}
  {H : Height φ}

theorem Solves.completed {u : Table φ} (h : P.Solves g u) : P.completed.Solves g u where
  covers := h.covers
  boundary := h.boundary
  arriving := h.arriving
  leaving := by
    intro n hn
    obtain ⟨x, y, hx, hf, hy⟩ := h.leaving n hn
    exact ⟨x, y, hx, by simp [Problem.completed, hf, Except.toOption], hy⟩

theorem leave_eq_of_transfer {n : StmtId} {A : StmtId → φ} {y : φ}
    (hy : P.transfer n (A n) = .ok y) : (P.system g).leave A n = y := by
  simp [system, hy, Except.toOption]

/-- A settled node whose transfer succeeds satisfies its equations. -/
theorem satisfied_of_settled (hg : g.Closed) {t : Table φ} (ht : t.Covers g.nodes) {n : StmtId}
    (hn : n ∈ g.nodes) (hok : ∀ x, ∃ y, P.transfer n x = .ok y)
    (hs : (P.system g).Settled t.facts n) : P.Satisfied g t n := by
  obtain ⟨harr, hleave⟩ := hs
  obtain ⟨y, hy⟩ := hok (t.facts.arriving n)
  refine ⟨_, y, Table.find?_arriving ht hn, ?_, hy, ?_⟩
  · rw [harr]
    exact isLUB_arrive hg ht n
  · rw [Table.find?_leaving ht hn, hleave, leave_eq_of_transfer hy]

/-- The transfer of the node succeeds always or never; where it does it is monotone and does not leave
the facts of bounded height. -/
def Uniform (P : Problem φ) (H : Height φ) (n : StmtId) : Prop :=
  (∃ f : φ → φ, (∀ x, P.transfer n x = .ok (f x)) ∧ Monotone f ∧
    ∀ x, H.Within x → H.Within (f x)) ∨ ∃ e, ∀ x, P.transfer n x = .error e

theorem Uniform.completed {n : StmtId} (h : P.Uniform H n) (hbot : H.Within ⊥) : ∃ f : φ → φ,
    (∀ x, P.completed.transfer n x = .ok (f x)) ∧ Monotone f ∧ ∀ x, H.Within x → H.Within (f x) := by
  rcases h with ⟨f, hf, hrest⟩ | ⟨e, he⟩
  · exact ⟨f, fun x => by simp [Problem.completed, hf, Except.toOption], hrest⟩
  · exact ⟨fun _ => ⊥, fun x => by simp [Problem.completed, he, Except.toOption],
      monotone_const, fun _ _ => hbot⟩

/-- Completed, the problem has monotone transfers, and where it had to be completed no transfer
succeeds. -/
structure Regular (P : Problem φ) (g : ControlFlowGraph) (H : Height φ) : Prop where
  completed : P.completed.Monotonic g H
  uniform : ∀ n ∈ P.direction.order g, P.Uniform H n

theorem Monotonic.regular (h : P.Monotonic g H) : P.Regular g H where
  completed := { h with
    transfer := fun n hn => Uniform.completed (.inl (h.transfer n hn)) h.bot_within }
  uniform := fun n hn => .inl (h.transfer n hn)

/-- The table is for the nodes of the graph, and its facts are on their way up from the first ones. -/
def Climbs (P : Problem φ) (g : ControlFlowGraph) (H : Height φ) (t₀ t : Table φ) : Prop :=
  t.Covers g.nodes ∧ (P.system g).Approach H t₀.facts t.facts

namespace Regular

variable (h : P.Regular g H) {n : StmtId} {t t₀ : Table φ}
include h

/-- The initial facts are below every solution, and a solution bounds the equations. -/
theorem initial (hg : g.Closed) (ht₀ : P.initial g = .ok t₀) :
    Climbs P g H t₀ t₀ ∧ ∀ u, P.completed.Solves g u →
      (P.system g).Bounds u.facts ∧ t₀.facts ≤ u.facts := by
  obtain ⟨b, hb, hwithin⟩ := h.completed.boundary
  obtain ⟨t, ht, hc, hfacts⟩ := initial_eq_ok hg hb
  cases ht.symm.trans ht₀
  obtain ⟨harr, hleave⟩ := h.completed.initial_facts hc hfacts hg
  exact ⟨⟨hc, h.completed.approach hwithin harr hleave⟩, fun u hu =>
    h.completed.bounds_of_solves hg hb harr hleave hu⟩

variable [DecidableEq φ] {c : Change (Table φ)}

/-- A visit that succeeds is a visit in the system, and the node's transfer never fails. -/
theorem visit_eq_ok (ht : t.Covers g.nodes) (hn : n ∈ P.direction.order g)
    (hv : P.visit g t n = .ok c) :
    c.value.Covers g.nodes ∧ c.value.facts = (P.system g).visit n t.facts ∧
      c.changed = decide (c.value.facts.leaving n ≠ t.facts.leaving n) ∧
      ∀ x, ∃ y, P.transfer n x = .ok y := by
  have hfind := Table.find?_leaving ht (Direction.mem_order.1 hn).1
  have hv' := hv
  simp only [visit, hfind] at hv'
  obtain ⟨y, hy, -⟩ := Outcome.bind_eq_ok.1 hv'
  have hok : ∀ x, ∃ y, P.transfer n x = .ok y := by
    rcases h.uniform n hn with ⟨f, hf, -⟩ | ⟨e, he⟩
    · exact fun x => ⟨f x, hf x⟩
    · cases hy.symm.trans (he _)
  have hcompleted : P.completed.visit g t n = P.visit g t n := by
    have harr : P.completed.arrivingAt g t n = P.arrivingAt g t n := rfl
    simp only [visit, hfind, harr]
    simp [Problem.completed, hy, Except.toOption]
  obtain ⟨u, hu, hc, hfacts⟩ := h.completed.visit_eq_ok ht hn
  cases hu.symm.trans (hcompleted.trans hv)
  exact ⟨hc, hfacts, rfl, hok⟩

/-- A visit takes facts further up. -/
theorem climbs_visit (hg : g.Closed) (ht : Climbs P g H t₀ t) (hn : n ∈ P.direction.order g)
    (hv : P.visit g t n = .ok c) : Climbs P g H t₀ c.value := by
  obtain ⟨hc, hfacts, -⟩ := h.visit_eq_ok ht.1 hn hv
  refine ⟨hc, ?_⟩
  rw [hfacts]
  exact ht.2.visit (h.completed.lawful hg) h.completed.keeps (free_iff.2 hn)

theorem raises (hg : g.Closed) (ht₀ : P.initial g = .ok t₀) (ht : Climbs P g H t₀ t)
    (hn : n ∈ P.direction.order g) (hv : P.visit g t n = .ok c) : P.Raises g t n c := by
  have hmem := (Direction.mem_order.1 hn).1
  have hS : (P.system g).Lawful := h.completed.lawful hg
  have hfree : (P.system g).Free n := free_iff.2 hn
  obtain ⟨hc, hfacts, hchanged, hok⟩ := h.visit_eq_ok ht.1 hn hv
  obtain ⟨-, hbounds⟩ := h.initial hg ht₀
  refine ⟨⟨ht.1, hc⟩, ?_, fun u hu => ?_, ?_, ?_⟩
  · change t.facts ≤ c.value.facts
    rw [hfacts]
    exact ht.2.rising.le_visit hS hfree
  · obtain ⟨hb, hle⟩ := hbounds u (hu.elim Solves.completed id)
    exact (h.climbs_visit hg ht hn hv).2.least u.facts hb hle
  · obtain ⟨y, hy⟩ := hok (c.value.facts.arriving n)
    refine ⟨_, y, Table.find?_arriving hc hmem, ?_, hy, ?_⟩
    · rw [hfacts, System.arriving_visit_self]
      exact isLUB_arrive hg ht.1 n
    · rw [Table.find?_leaving hc hmem, hfacts, System.leaving_visit_self, ← hfacts,
        leave_eq_of_transfer hy]
  · rw [hchanged, decide_eq_true_eq, Table.find?_leaving hc hmem, Table.find?_leaving ht.1 hmem,
      ne_eq, ne_eq, Option.some_inj]

/-- Between two sweeps facts are on their way up. -/
theorem climbs_of_sweeps (hg : g.Closed) (ht₀ : P.initial g = .ok t₀) {s : State φ}
    (hs : P.Reached g .sweeps s) : Climbs P g H t₀ s.table := by
  induction hs with
  | start ht =>
    cases ht₀.symm.trans ht
    exact (h.initial hg ht₀).1
  | step _ hstep ih =>
    refine sweep_keeps (I := Climbs P g H t₀) (fun t ht n hn c => h.climbs_visit hg ht hn) ?_
      (sweepStep_eq_running hstep)
    exact ih

/-- Between two iterations the work list is ready, and what has left it has been visited. -/
theorem underway_of_workList (hg : g.Closed) (ht₀ : P.initial g = .ok t₀) {s : State φ}
    (hs : P.Reached g .workList s) : (P.system g).Underway H t₀.facts s ∧
      ∀ n ∈ P.direction.order g, n ∉ s.queue → ∀ x, ∃ y, P.transfer n x = .ok y := by
  induction hs with
  | start ht =>
    cases ht₀.symm.trans ht
    obtain ⟨⟨hc, happ⟩, -⟩ := h.initial hg ht₀
    have hqueue : ∀ n ∈ P.direction.order g, n ∈ enqueue [] (P.direction.order g) := fun n hn =>
      mem_enqueue.2 (.inr hn)
    refine ⟨⟨hc, happ, nodup_enqueue .nil, fun n hn => ?_, fun n hn hq => ?_⟩, fun n hn hq => ?_⟩
    · exact free_iff.2 ((mem_enqueue.1 hn).resolve_left List.not_mem_nil)
    · exact absurd (hqueue n (free_iff.1 hn)) hq
    · exact absurd (hqueue n hn) hq
  | @step s s' _ hstep ih =>
    obtain ⟨hunderway, hvisited⟩ := ih
    obtain ⟨n, q, c, hq, hv, htable, hqueue⟩ := workStep_eq_running hstep
    have hn := free_iff.1 (hunderway.2.free n (hq ▸ .head _))
    obtain ⟨hc, hfacts, hchanged, hok⟩ := h.visit_eq_ok hunderway.1 hn hv
    rw [← htable] at hc hfacts hchanged
    have hrequeue : s'.queue = (P.system g).requeue n s.table.facts q := by
      rw [hqueue, hchanged, hfacts, System.requeue]
      simp only [decide_eq_true_eq, ne_eq, ite_not]
      simp [system]
    obtain ⟨hnext, hleft⟩ := hunderway.next (h.completed.lawful hg) h.completed.keeps hq hc hfacts
      hrequeue
    refine ⟨hnext, fun m hm hmq => ?_⟩
    rcases hleft m hmq with rfl | hmq
    · exact hok
    · exact hvisited m hm hmq

/-- Whenever a node is visited, it is not held and facts are on their way up. -/
theorem climbs_of_visiting (hg : g.Closed) (ht₀ : P.initial g = .ok t₀) {schedule : Schedule}
    (hn : P.Visiting g schedule t n) : Climbs P g H t₀ t ∧ n ∈ P.direction.order g := by
  cases hn with
  | workList hs hq =>
    obtain ⟨⟨hc, hready⟩, -⟩ := h.underway_of_workList hg ht₀ hs
    exact ⟨⟨hc, hready.toApproach⟩, free_iff.1 (hready.free n (hq ▸ .head _))⟩
  | @sweeps s s' l n l' any hs ho hsweep =>
    have hmem : ∀ m ∈ l ++ n :: l', m ∈ P.direction.order g := fun m hm => ho ▸ hm
    refine ⟨sweep_keeps (I := Climbs P g H t₀) (fun t ht m hm c => h.climbs_visit hg ht
      (hmem m (List.mem_append_left _ hm))) ?_ hsweep, hmem n (List.mem_append_right _ (.head _))⟩
    have hclimbs := h.climbs_of_sweeps hg ht₀ hs
    exact hclimbs

theorem ascends (hg : g.Closed) : P.Ascends g := by
  obtain ⟨b, hb, -⟩ := h.completed.boundary
  obtain ⟨t₀, ht₀, -⟩ := initial_eq_ok (P := P) hg hb
  constructor
  · exact ⟨t₀, ht₀⟩
  · intro schedule t n hn
    obtain ⟨ht, hmem⟩ := h.climbs_of_visiting hg ht₀ hn
    have hnode := (Direction.mem_order.1 hmem).1
    rcases h.uniform n hmem with ⟨f, hf, -⟩ | ⟨e, he⟩
    · obtain ⟨changed, u, hv, -⟩ := visit_covers ht.1 hnode fun x => ⟨f x, hf x⟩
      exact .inl ⟨_, hv, h.raises hg ht₀ ht hmem hv⟩
    · exact .inr ⟨e, visit_eq_error ht.1 hnode he, he⟩
  · intro s n hs hn hq
    obtain ⟨⟨hc, hready⟩, hvisited⟩ := h.underway_of_workList hg ht₀ hs
    exact satisfied_of_settled hg hc (Direction.mem_order.1 hn).1 (hvisited n hn hq)
      (hready.settled n (free_iff.2 hn) hq)
  · intro schedule t ht
    exact exists_reached_of_solve ht

end Regular

end Dataflow.Problem

namespace Program

variable {p : Program} {m : MethodId} {g : ControlFlowGraph}

theorem constantPropagation_regular (hp : p.Layout) (hv : p.Declared)
    (hg : p.controlFlow m = .ok g) :
    p.constantPropagation.Regular g (Fact.height p.vars.size) := by
  obtain ⟨d, hd, rfl, -, -, hnodes, -⟩ := hp.of_controlFlow hg
  have huniform : ∀ n ∈ p.constantPropagation.direction.order g,
      p.constantPropagation.Uniform (Fact.height p.vars.size) n := by
    intro n hn
    by_cases hs : ∃ tag, p.Unsupported n tag
    · obtain ⟨tag, hs⟩ := hs
      exact .inr ⟨_, hs.constantTransfer_eq_error⟩
    · obtain ⟨i, hi⟩ := hp.instr_of_mem_nodes hd (hnodes ▸ (Dataflow.Direction.mem_order.1 hn).1)
      exact .inl (hv.constantTransfer_eq_ok hi fun tag htag => hs ⟨tag, htag⟩)
  have hbot := Fact.within_bot p.vars.size
  exact {
    completed := {
      start_eq := rfl
      merge_eq := fun _ _ => rfl
      bot_within := hbot
      sup_within := Fact.Within.merge
      bound_le := le_rfl
      boundary := hp.parameterFact_eq_ok hd
      transfer := fun n hn => (huniform n hn).completed hbot }
    uniform := huniform }

/-- Facts only rise in both analyses of a method. -/
theorem Layout.ascends (hp : p.Layout) (hv : p.Declared) (hg : p.controlFlow m = .ok g) :
    p.constantPropagation.Ascends g ∧ p.liveVariables.Ascends g := by
  obtain ⟨d, -, -, -, -, -, hclosed⟩ := hp.of_controlFlow hg
  exact ⟨(constantPropagation_regular hp hv hg).ascends hclosed,
    (hp.liveVariables_monotonic hg).regular.ascends hclosed⟩

end Program

end ProgramFlow
