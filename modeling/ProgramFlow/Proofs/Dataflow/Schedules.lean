import ProgramFlow.Proofs.Dataflow.LeastSolution
/-!
The two schedules of the solver. Both find the least solution of a problem with monotone transfers,
and both stop at the first node whose transfer always fails.
-/
namespace ProgramFlow.Dataflow

theorem Direction.nodup_order {d : Direction} {g : ControlFlowGraph} (h : g.nodes.Nodup) :
    (d.order g).Nodup := by
  cases d
  · exact h.filter _
  · exact ((List.reverse_perm _).nodup_iff.2 h).filter _

namespace Problem

variable {φ : Type} [DecidableEq φ] {P : Problem φ} {g : ControlFlowGraph} {n : StmtId}

section Least

variable [SemilatticeSup φ] [OrderBot φ] {H : Height φ}

namespace Monotonic

variable (h : P.Monotonic g H)

include h

theorem steps : (P.system g).Steps (P.workStep g) where
  done := by
    intro s hs
    simp only [workStep, hs]
  next := by
    intro s n q hc hs hn
    obtain ⟨u, hu, hcu, hfacts⟩ := h.visit_eq_ok hc (free_iff.1 hn)
    have hstep : ∃ t : State φ, P.workStep g s = .running t ∧ t.table = u ∧ t.queue =
        if u.facts.leaving n ≠ s.table.facts.leaving n then
          enqueue q ((P.direction.sinks g n).filter (· ≠ P.direction.boundaryNode g))
        else q := by
      simp only [workStep, hs, hu]
      exact ⟨_, rfl, rfl, by simp⟩
    obtain ⟨t, ht, rfl, hq⟩ := hstep
    refine ⟨t, ht, hcu, hfacts, ?_⟩
    rw [hq, hfacts, System.requeue, ite_not]
    simp [system]

/-- What has happened when a sweep has visited some nodes. -/
structure Swept (P : Problem φ) (g : ControlFlowGraph) (H : Height φ) (x₀ : Facts φ) (k : Nat)
    (visited : List StmtId) (r : Change (State φ)) : Prop where
  covers : r.value.table.Covers g.nodes
  approach : (P.system g).Approach H x₀ r.value.table.facts
  potential_le : (P.system g).potential H r.value.table.facts ≤ k
  changed : r.changed = true → (P.system g).potential H r.value.table.facts < k
  unchanged : r.changed = false → ∀ n ∈ visited, (P.system g).Free n →
    (P.system g).Settled r.value.table.facts n

variable {x₀ : Facts φ} {k : Nat}

theorem Swept.visit (hg : g.Closed) {visited : List StmtId} {any : Bool} {s : State φ}
    (hs : Swept P g H x₀ k visited ⟨any, s⟩) (hn : n ∈ P.direction.order g) :
    ∃ changed table, P.visit g s.table n = .ok ⟨changed, table⟩ ∧ ∀ counters,
      Swept P g H x₀ k (visited ++ [n]) ⟨any || changed, ⟨table, s.queue, counters⟩⟩ := by
  obtain ⟨hc, happ, hle, hchanged, hunchanged⟩ := hs
  obtain ⟨u, hu, hcu, hfacts⟩ := h.visit_eq_ok hc hn
  have hfree := free_iff.2 hn
  have hS := h.lawful hg
  have happ' := happ.visit hS h.keeps hfree
  rw [← hfacts] at happ'
  refine ⟨_, u, hu, fun counters => ?_⟩
  by_cases he : u.facts.leaving n = s.table.facts.leaving n
  · have hpot : (P.system g).potential H u.facts = (P.system g).potential H s.table.facts := by
      rw [hfacts] at he ⊢
      exact System.potential_visit_of_eq he
    simp only [he, ne_eq, not_true, decide_false, Bool.or_false]
    refine ⟨hcu, happ', hpot ▸ hle, fun hany => hpot ▸ hchanged hany, fun hany m hm hmf => ?_⟩
    rw [hfacts] at he ⊢
    refine happ.rising.settled_visit hS hfree hmf (fun hmn => hunchanged hany m ?_ hmf) fun _ => he
    exact (List.mem_append.1 hm).resolve_right fun h => hmn (List.mem_singleton.1 h)
  · have hpot : (P.system g).potential H u.facts < (P.system g).potential H s.table.facts := by
      rw [hfacts] at he ⊢
      exact happ.potential_visit_lt hS h.keeps hfree he
    have hlt := hpot.trans_le hle
    simp only [he, ne_eq, not_false_eq_true, decide_true, Bool.or_true]
    exact ⟨hcu, happ', hlt.le, fun _ => hlt, fun hany => (Bool.false_ne_true hany.symm).elim⟩

theorem sweep_eq_ok (hg : g.Closed) {s : State φ} (hc : s.table.Covers g.nodes)
    (hs : (P.system g).Approach H x₀ s.table.facts) :
    ∃ r, P.sweep g s (P.direction.order g) = .ok r ∧
      Swept P g H x₀ ((P.system g).potential H s.table.facts) (P.direction.order g) r := by
  refine Outcome.foldlM_induction (Q := Swept P g H x₀ ((P.system g).potential H s.table.facts))
    (k := []) ?_ ⟨hc, hs, le_rfl, fun h => (Bool.false_ne_true h).elim, fun _ _ h _ => ?_⟩
  · rintro visited ⟨any, s⟩ hs n hn
    obtain ⟨changed, table, hv, hs⟩ := Swept.visit h hg hs hn
    simp only [hv, Outcome.ok_bind, Outcome.pure_eq]
    exact ⟨_, rfl, hs _⟩
  · exact (List.not_mem_nil h).elim

/-- A state between two sweeps: its table is for the nodes of the graph, and approaches every
solution from below. -/
def Sweeping (P : Problem φ) (g : ControlFlowGraph) (H : Height φ) (x₀ : Facts φ)
    (s : State φ) : Prop :=
  s.table.Covers g.nodes ∧ (P.system g).Approach H x₀ s.table.facts

/-- Each sweep raises the facts, or finds that they solve the system. -/
theorem of_sweeping (hg : g.Closed) {s : State φ} (hs : Sweeping P g H x₀ s) :
    (∃ t, P.sweepStep g s = .running t ∧ Sweeping P g H x₀ t ∧
      (P.system g).potential H t.table.facts < (P.system g).potential H s.table.facts) ∨
    ∃ r, P.sweepStep g s = .finished r ∧ (P.system g).Delivers x₀ r := by
  obtain ⟨hc, happ⟩ := hs
  have hsweep := h.sweep_eq_ok hg (s := { s with
    counters := { s.counters with iterations := s.counters.iterations + 1 } }) hc happ
  obtain ⟨⟨changed, t⟩, ht, hsw⟩ := hsweep
  cases changed with
  | true =>
    refine .inl ⟨t, ?_, ⟨hsw.covers, hsw.approach⟩, hsw.changed rfl⟩
    simp only [sweepStep, ht]
  | false =>
    have hsettled : ∀ n, (P.system g).Free n → (P.system g).Settled t.table.facts n :=
      fun n hn => hsw.unchanged rfl n (free_iff.1 hn) hn
    refine .inr ⟨.ok t, ?_, t, rfl, hsw.covers, hsettled, hsw.approach.kept, hsw.approach.least⟩
    simp only [sweepStep, ht]

/-- Sweeps stop with a table that solves the system. -/
theorem sweeps_end (hg : g.Closed) {s : State φ} (hc : s.table.Covers g.nodes)
    (hs : (P.system g).Approach H x₀ s.table.facts) {rounds : Nat}
    (hr : g.nodes.length + H.bound + 3 ≤ rounds) :
    ∃ t : State φ, Progress.iterate (P.sweepStep g) rounds s = .finished (.ok t) ∧
      t.table.Covers g.nodes ∧ (P.system g).Solved x₀ t.table.facts := by
  have hmeasure : (P.system g).potential H s.table.facts + 1 < 2 ^ rounds := by
    have hle : (P.system g).potential H s.table.facts ≤ g.nodes.length * H.bound :=
      System.potential_le
    have hlt := work_lt_two_pow hr
    nlinarith [Nat.zero_le (g.nodes.length * H.bound * g.nodes.length)]
  obtain ⟨r, hr, t, rfl, ht⟩ := Progress.iterate_ends (P := Sweeping P g H x₀)
    (Q := (P.system g).Delivers x₀) (m := fun t => (P.system g).potential H t.table.facts)
    rounds s ⟨hc, hs⟩ hmeasure fun _ => h.of_sweeping hg
  exact ⟨t, hr, ht⟩

/-- Under both schedules the solver solves the system of the problem from the initial facts. -/
theorem exists_solved (hg : g.Closed) (hnodup : g.nodes.Nodup) : ∃ (b : φ) (t₀ t : Table φ),
    P.boundary g = .ok b ∧ t₀.facts.arriving = ⊥ ∧
    t₀.facts.leaving = Function.update ⊥ (P.direction.boundaryNode g) b ∧
    (∀ schedule, P.solve g schedule = .ok t) ∧ t.Covers g.nodes ∧
    (P.system g).Solved t₀.facts t.facts := by
  obtain ⟨b, hb, hwithin⟩ := h.boundary
  obtain ⟨t₀, hinit, hc, hfacts⟩ := initial_eq_ok hg hb
  obtain ⟨harr, hleave⟩ := h.initial_facts hc hfacts hg
  have happ := h.approach hwithin harr hleave
  have hrounds : g.nodes.length + H.bound + 3 ≤ P.rounds g := by
    have hle := h.bound_le
    unfold rounds
    omega
  have hqueue : enqueue [] (P.direction.order g) = P.direction.order g :=
    enqueue_of_nodup (Direction.nodup_order hnodup)
  have hwork : ∃ s : State φ, P.workFrom g t₀ = .ok s ∧ s.table.Covers g.nodes ∧
      (P.system g).Solved t₀.facts s.table.facts := by
    have hready : (P.system g).Ready H t₀.facts t₀.facts (P.direction.order g) :=
      ⟨happ, Direction.nodup_order hnodup, fun n hn => free_iff.2 hn,
        fun n hn hq => absurd (free_iff.1 hn) hq⟩
    obtain ⟨s, hs, hsolved⟩ := h.steps.iterate (h.lawful hg) h.keeps
      (s := { table := t₀, queue := P.direction.order g }) hc hready hrounds
    exact ⟨s, by simp only [workFrom, run, hqueue, hs], hsolved⟩
  have hsweeps : ∃ s : State φ, P.run g (P.sweepStep g) { table := t₀ } = .ok s ∧
      s.table.Covers g.nodes ∧ (P.system g).Solved t₀.facts s.table.facts := by
    obtain ⟨s, hs, hsolved⟩ := h.sweeps_end hg (s := { table := t₀ }) hc happ hrounds
    exact ⟨s, by simp only [run, hs], hsolved⟩
  obtain ⟨s, hs, hsc, hss⟩ := hwork
  obtain ⟨u, hu, huc, hus⟩ := hsweeps
  have hsl := h.isLeast_of_solved hg hb harr hleave hsc hss
  have hul := h.isLeast_of_solved hg hb harr hleave huc hus
  refine ⟨b, t₀, s.table, hb, harr, hleave, fun schedule => ?_, hsc, hss⟩
  cases schedule with
  | workList => simp [solve, solveCounting, hinit, hs]
  | sweeps => simp [solve, solveCounting, hinit, hu, isLeast_unique hul hsl]

/-- Under both schedules the solver finds the least solution. -/
theorem solve_eq_ok (hg : g.Closed) (hnodup : g.nodes.Nodup) :
    ∃ t, (∀ schedule, P.solve g schedule = .ok t) ∧ IsLeast {t | P.Solves g t} t := by
  obtain ⟨b, t₀, t, hb, harr, hleave, ht, hc, hsolved⟩ := h.exists_solved hg hnodup
  exact ⟨t, ht, h.isLeast_of_solved hg hb harr hleave hc hsolved⟩

/-- What the solver finds is below all facts that bound the equations and the boundary fact. -/
theorem solve_le (hg : g.Closed) (hnodup : g.nodes.Nodup) {schedule : Schedule} {t : Table φ}
    (ht : P.solve g schedule = .ok t) {y : Facts φ} (hy : (P.system g).Bounds y)
    (hb : ∀ b, P.boundary g = .ok b → b ≤ y.leaving (P.direction.boundaryNode g)) :
    t.facts ≤ y := by
  obtain ⟨b, t₀, u, hok, harr, hleave, hu, -, hsolved⟩ := h.exists_solved hg hnodup
  cases ht.symm.trans (hu schedule)
  apply hsolved.least y hy
  constructor
  · rw [harr]
    exact bot_le
  · intro n
    rw [hleave, Function.update_apply]
    split
    · next hn =>
      rw [hn]
      exact hb b hok
    · exact bot_le

/-- Nothing arrives at the boundary node. -/
theorem arriving_boundaryNode (hg : g.Closed) (hnodup : g.nodes.Nodup) {schedule : Schedule}
    {t : Table φ} (ht : P.solve g schedule = .ok t) :
    t.facts.arriving (P.direction.boundaryNode g) = ⊥ := by
  obtain ⟨b, t₀, u, -, harr, -, hu, -, hsolved⟩ := h.exists_solved hg hnodup
  cases ht.symm.trans (hu schedule)
  have hheld : ¬ (P.system g).Free (P.direction.boundaryNode g) := fun hf => hf.2 (.head _)
  rw [(hsolved.kept _ hheld).1, harr]
  rfl

end Monotonic

end Least

section Failure

theorem visit_covers {t : Table φ} (ht : t.Covers g.nodes) (hn : n ∈ g.nodes)
    (h : ∀ x, ∃ y, P.transfer n x = .ok y) :
    ∃ changed u, P.visit g t n = .ok ⟨changed, u⟩ ∧ u.Covers g.nodes := by
  obtain ⟨old, hold⟩ := Option.isSome_iff_exists.1 ((ht n).2.2 hn)
  obtain ⟨y, hy⟩ := h (P.arrivingAt g t n)
  simp only [visit, hold, hy, Outcome.ok_bind]
  exact ⟨_, _, rfl, ht.set hn _ _⟩

theorem visit_eq_error {t : Table φ} (ht : t.Covers g.nodes) (hn : n ∈ g.nodes)
    {e : AnalysisError} (h : ∀ x, P.transfer n x = .error e) : P.visit g t n = .error e := by
  obtain ⟨old, hold⟩ := Option.isSome_iff_exists.1 ((ht n).2.2 hn)
  simp only [visit, hold, h, Outcome.error_bind]

variable {l l' : List StmtId} {e : AnalysisError}

/-- The sweep reaches the failing node after those before it. -/
theorem sweep_eq_error {s : State φ} (hs : s.table.Covers g.nodes)
    (ho : P.direction.order g = l ++ n :: l') (hl : ∀ m ∈ l, ∀ x, ∃ y, P.transfer m x = .ok y)
    (hn : ∀ x, P.transfer n x = .error e) : P.sweep g s (P.direction.order g) = .error e := by
  have hmem : ∀ m ∈ l ++ n :: l', m ∈ g.nodes := fun m hm => (Direction.mem_order.1 (ho ▸ hm)).1
  rw [sweep, ho]
  refine Outcome.foldlM_eq_error (Q := fun r => r.value.table.Covers g.nodes) ?_ ?_ hs
  · rintro ⟨any, s⟩ hs m hm
    obtain ⟨changed, u, hu, hc⟩ := visit_covers hs (hmem m (List.mem_append_left _ hm)) (hl m hm)
    simp only [hu, Outcome.ok_bind]
    exact ⟨_, rfl, hc⟩
  · rintro ⟨any, s⟩ hs
    have hv := visit_eq_error hs (hmem n (List.mem_append_right _ (.head _))) hn
    simp only [hv, Outcome.error_bind]

theorem workList_error (hnodup : g.nodes.Nodup) (ho : P.direction.order g = l ++ n :: l')
    (hl : ∀ m ∈ l, ∀ x, ∃ y, P.transfer m x = .ok y) (hn : ∀ x, P.transfer n x = .error e)
    {s : State φ} (hs : s.table.Covers g.nodes) (hq : s.queue = P.direction.order g) {rounds : Nat}
    (hr : g.nodes.length < rounds) :
    Progress.iterate (P.workStep g) rounds s = .finished (.error e) := by
  have hmem : ∀ m ∈ l ++ n :: l', m ∈ g.nodes := fun m hm => (Direction.mem_order.1 (ho ▸ hm)).1
  have hnl : n ∉ l := fun hnl =>
    (List.nodup_append.1 (ho ▸ Direction.nodup_order hnodup)).2.2 n hnl n (.head _) rfl
  have hlen : l.length < rounds := by
    have hle : (P.direction.order g).length ≤ g.nodes.length :=
      (List.subperm_of_subset (Direction.nodup_order hnodup)
        fun m hm => (Direction.mem_order.1 hm).1).length_le
    rw [ho, List.length_append] at hle
    omega
  refine iterate_error (I := fun s => s.table.Covers g.nodes) ?_ ?_ hnl hs (hq.trans ho) hlen
  · intro s m q hs hq hm
    obtain ⟨changed, u, hu, hc⟩ := visit_covers hs (hmem m (List.mem_append_left _ hm)) (hl m hm)
    obtain ⟨more, hmore⟩ := enqueue_eq_append q
      ((P.direction.sinks g m).filter (· ≠ P.direction.boundaryNode g))
    simp only [workStep, hq, hu, hmore]
    cases changed with
    | true => exact ⟨_, more, rfl, hc, rfl⟩
    | false => exact ⟨_, [], rfl, hc, (List.append_nil q).symm⟩
  · intro s q hs hq
    have hv := visit_eq_error hs (hmem n (List.mem_append_right _ (.head _))) hn
    simp only [workStep, hq, hv]

/-- Under both schedules the solver stops at the first node whose transfer always fails. -/
theorem solve_eq_error (hg : g.Closed) (hnodup : g.nodes.Nodup) {b : φ}
    (hb : P.boundary g = .ok b) (ho : P.direction.order g = l ++ n :: l')
    (hl : ∀ m ∈ l, ∀ x, ∃ y, P.transfer m x = .ok y) (hn : ∀ x, P.transfer n x = .error e)
    (schedule : Schedule) : P.solve g schedule = .error e := by
  obtain ⟨t, hinit, hc, -⟩ := initial_eq_ok hg hb
  have hqueue : enqueue [] (P.direction.order g) = P.direction.order g :=
    enqueue_of_nodup (Direction.nodup_order hnodup)
  have hrounds : g.nodes.length < P.rounds g := by
    unfold rounds
    omega
  cases schedule with
  | workList =>
    have hwork := workList_error hnodup ho hl hn
      (s := { table := t, queue := P.direction.order g }) hc rfl hrounds
    simp [solve, solveCounting, hinit, workFrom, run, hqueue, hwork]
  | sweeps =>
    let s : State φ := { table := t }
    have hstep : P.sweepStep g s = .finished (.error e) := by
      simp only [sweepStep]
      rw [sweep_eq_error hc ho hl hn]
    obtain ⟨r, hr, rfl⟩ := Progress.iterate_ends (P := fun u => u = s)
      (Q := fun r => r = Except.error e) (m := fun _ => 0) (P.rounds g) s rfl
      (Nat.one_lt_two_pow (Nat.ne_of_gt (Nat.zero_lt_of_lt hrounds)))
      fun u hu => .inr ⟨_, hu ▸ hstep, rfl⟩
    simp [solve, solveCounting, hinit, run, s, hr]

/-- If every transfer succeeds always or never and the solver succeeds, then all transfers do. -/
theorem transfer_ok_of_solve_eq_ok (hg : g.Closed) (hnodup : g.nodes.Nodup) {b : φ}
    (hb : P.boundary g = .ok b)
    (h : ∀ n ∈ P.direction.order g, (∀ x, ∃ y, P.transfer n x = .ok y) ∨
      ∃ e, ∀ x, P.transfer n x = .error e)
    {schedule : Schedule} {t : Table φ} (ht : P.solve g schedule = .ok t) :
    ∀ n ∈ P.direction.order g, ∀ x, ∃ y, P.transfer n x = .ok y := by
  by_contra hnot
  obtain ⟨n, hn⟩ := not_forall.1 hnot
  obtain ⟨l, n, l', ho, hn, hl⟩ := exists_first
    (P := fun n => ∀ x, ∃ y, P.transfer n x = .ok y) ⟨n, Classical.not_imp.1 hn⟩
  obtain ⟨e, he⟩ := (h n (ho ▸ List.mem_append_right _ (.head _))).resolve_left hn
  cases ht.symm.trans (solve_eq_error hg hnodup hb ho hl he schedule)

end Failure

end Problem

end ProgramFlow.Dataflow
