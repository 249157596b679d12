import ProgramFlow.Proofs.Dataflow.Analyses
/-!
Liveness by paths. The solver finds a variable live after a node exactly when some path from there
leads to a use of the variable and no statement on the way defines it, also in loops and where no
path leads to the exit or from the entry.
-/
namespace ProgramFlow

theorem SortedSet.mem_join {l : List LiveSet} {v : VarId} :
    v ∈ Dataflow.join l ↔ ∃ s ∈ l, v ∈ s := by
  induction l with
  | nil => simp [Dataflow.join, bot_eq_empty]
  | cons s l ih => rw [Dataflow.join_cons, sup_eq_union, mem_union, ih, List.exists_mem_cons_iff]

namespace Program

/-- The statement reads the variable. -/
def Uses (p : Program) (n : StmtId) (v : VarId) : Prop := ∃ i, p.instr n = .ok i ∧ v ∈ i.uses

/-- The statement assigns the variable. -/
def Defines (p : Program) (n : StmtId) (v : VarId) : Prop :=
  ∃ i, p.instr n = .ok i ∧ i.assigned? = some v

/-- A path goes on from the node to a use of the variable, which no statement between defines. -/
def UsedLater (p : Program) (g : ControlFlowGraph) (v : VarId) (n : StmtId) : Prop :=
  ∃ between last, List.IsChain (fun a b => b ∈ g.succs a) (n :: between ++ [last]) ∧
    (∀ s ∈ between, ¬ p.Defines s v) ∧ p.Uses last v

variable {p : Program} {m : MethodId} {d : MethodDecl} {g : ControlFlowGraph} {v : VarId}
  {n : StmtId}

theorem mem_liveBefore_iff {i : Instr} (hi : p.instr n = .ok i) {live : LiveSet} :
    v ∈ i.liveBefore live ↔ p.Uses n v ∨ ¬ p.Defines n v ∧ v ∈ live := by
  simp only [Instr.mem_liveBefore, Uses, Defines, hi, Except.ok.injEq, exists_eq_left', ne_eq]
  rw [and_comm (a := v ∈ live)]

/-- The first statement of a path uses the variable or leaves it alone. -/
theorem usedLater_iff : p.UsedLater g v n ↔
    ∃ s ∈ g.succs n, p.Uses s v ∨ ¬ p.Defines s v ∧ p.UsedLater g v s := by
  constructor
  · rintro ⟨between, last, hchain, hkept, huse⟩
    cases between with
    | nil =>
      rw [List.singleton_append, List.isChain_pair] at hchain
      exact ⟨last, hchain, .inl huse⟩
    | cons s between =>
      rw [List.cons_append, List.cons_append, List.isChain_cons_cons] at hchain
      rw [List.forall_mem_cons] at hkept
      exact ⟨s, hchain.1, .inr ⟨hkept.1, between, last, hchain.2, hkept.2, huse⟩⟩
  · rintro ⟨s, hs, huse | ⟨hkept, between, last, hchain, hrest, huse⟩⟩
    · exact ⟨[], s, List.isChain_pair.2 hs, by simp, huse⟩
    · exact ⟨s :: between, last, List.isChain_cons_cons.2 ⟨hs, hchain⟩,
        List.forall_mem_cons.2 ⟨hkept, hrest⟩, huse⟩

theorem UsedLater.mem_reads (h : p.UsedLater g v n) : v ∈ p.reads := by
  obtain ⟨_, last, -, -, i, hi, hv⟩ := h
  exact Program.mem_reads hi hv

/-- What holds of live sets that satisfy the equations: after a node a variable is live if it is live
before a successor, and before it if the node uses it, or does not define it and it is live after. -/
structure Balances (p : Program) (g : ControlFlowGraph) (before after : StmtId → LiveSet) : Prop where
  mem_after : ∀ n ∈ g.nodes, ∀ v, v ∈ after n ↔ ∃ s ∈ g.succs n, v ∈ before s
  mem_before : ∀ n ∈ g.nodes, ∀ v, v ∈ before n ↔ p.Uses n v ∨ ¬ p.Defines n v ∧ v ∈ after n

/-- Every path to a use makes the variable live where it starts: by induction on the path. -/
theorem Balances.mem_of_usedLater {before after : StmtId → LiveSet}
    (h : p.Balances g before after) (hg : g.Closed) (hn : n ∈ g.nodes) (hv : p.UsedLater g v n) :
    v ∈ after n := by
  obtain ⟨between, last, hchain, hkept, huse⟩ := hv
  induction between generalizing n with
  | nil =>
    rw [List.singleton_append, List.isChain_pair] at hchain
    exact (h.mem_after n hn v).2 ⟨last, hchain, (h.mem_before last (hg.succs hchain) v).2 (.inl huse)⟩
  | cons s between ih =>
    rw [List.cons_append, List.cons_append, List.isChain_cons_cons] at hchain
    rw [List.forall_mem_cons] at hkept
    have hs := hg.succs hchain.1
    have hlive := ih hs hchain.2 hkept.2
    exact (h.mem_after n hn v).2 ⟨s, hchain.1, (h.mem_before s hs v).2 (.inr ⟨hkept.1, hlive⟩)⟩

open Classical in
/-- The variables with a path to a use, after each node and before it. -/
noncomputable def usedFacts (p : Program) (g : ControlFlowGraph) : Dataflow.Facts LiveSet where
  arriving n := .ofList (p.reads.filter (p.UsedLater g · n))
  leaving n := .ofList (p.reads.filter fun v => p.Uses n v ∨ ¬ p.Defines n v ∧ p.UsedLater g v n)

theorem mem_arriving_usedFacts : v ∈ (p.usedFacts g).arriving n ↔ p.UsedLater g v n := by
  simp only [usedFacts, SortedSet.mem_ofList, List.mem_filter, decide_eq_true_eq]
  exact and_iff_right_of_imp UsedLater.mem_reads

theorem mem_leaving_usedFacts : v ∈ (p.usedFacts g).leaving n ↔
    p.Uses n v ∨ ¬ p.Defines n v ∧ p.UsedLater g v n := by
  simp only [usedFacts, SortedSet.mem_ofList, List.mem_filter, decide_eq_true_eq]
  apply and_iff_right_of_imp
  rintro (⟨i, hi, hv⟩ | ⟨-, hv⟩)
  · exact mem_reads hi hv
  · exact hv.mem_reads

/-- The variables with a path to a use satisfy the equations. -/
theorem bounds_usedFacts (hi : ∀ s ∈ g.nodes, ∃ i, p.instr s = .ok i) :
    (p.liveVariables.system g).Bounds (p.usedFacts g) := by
  intro n hn
  constructor
  · apply SortedSet.le_iff.2
    intro v hv
    obtain ⟨live, hlive, hv⟩ := SortedSet.mem_join.1 hv
    obtain ⟨s, hs, rfl⟩ := List.mem_map.1 hlive
    exact mem_arriving_usedFacts.2 (usedLater_iff.2 ⟨s, hs, mem_leaving_usedFacts.1 hv⟩)
  · obtain ⟨i, hi⟩ := hi n hn.1
    apply SortedSet.le_iff.2
    intro v hv
    have hv : v ∈ i.liveBefore ((p.usedFacts g).arriving n) := by
      simpa [Dataflow.Problem.system, liveVariables, hi, Except.toOption] using hv
    rw [mem_liveBefore_iff hi, mem_arriving_usedFacts] at hv
    exact mem_leaving_usedFacts.2 hv

/-- The solution satisfies the equations at every node, the exit included: there nothing is live. -/
theorem Layout.balances (hl : p.Layout) (hg : p.controlFlow m = .ok g)
    {schedule : Dataflow.Schedule} {t : Dataflow.Table LiveSet}
    (ht : p.liveVariables.solve g schedule = .ok t) :
    p.Balances g t.facts.leaving t.facts.arriving := by
  obtain ⟨d, hd, -, -, hexit, hnodes, hclosed⟩ := hl.of_controlFlow hg
  have hnodup : g.nodes.Nodup := hnodes ▸ d.nodup_nodes
  have hmono := hl.liveVariables_monotonic hg
  obtain ⟨u, hu, hleast⟩ := hmono.solve_eq_ok hclosed hnodup
  cases ht.symm.trans (hu schedule)
  obtain ⟨-, hboundary, hsettled⟩ := (hmono.solves_iff hclosed).1 hleast.1
  have hafter : t.facts.arriving d.exit = ∅ := hexit ▸ hmono.arriving_boundaryNode hclosed hnodup ht
  have hbefore : t.facts.leaving d.exit = ∅ := hexit ▸ (Except.ok.inj hboundary).symm
  have hinstr : p.instr d.exit = .ok .exit := instr_eq_ok.2 ⟨_, hl.exit hd, rfl⟩
  have hfree : ∀ n ∈ g.nodes, n ≠ d.exit → n ∈ p.liveVariables.direction.order g :=
    fun n hn he => Dataflow.Direction.mem_order.2 ⟨hn, fun h => he (h.trans hexit)⟩
  constructor
  · intro n hn v
    by_cases he : n = d.exit
    · rw [he, hafter, ControlFlowGraph.succs, outEdges_exit hg hd]
      simp
    · rw [(hsettled n (hfree n hn he)).1]
      simp [Dataflow.Problem.system, SortedSet.mem_join, liveVariables, Dataflow.Direction.sources]
  · intro n hn v
    obtain ⟨i, hi⟩ := hl.instr_of_mem_nodes hd (hnodes ▸ hn)
    rw [← mem_liveBefore_iff hi]
    by_cases he : n = d.exit
    · subst he
      cases hi.symm.trans hinstr
      rw [hbefore, hafter]
      rfl
    · rw [(hsettled n (hfree n hn he)).2]
      simp [Dataflow.Problem.system, liveVariables, hi, Except.toOption]

/-- Both schedules find a variable live after a node exactly when a path leads on to a use of it, and
live before the node when it is used there, or live after it and not defined there. -/
theorem Built.mem_live_iff (hp : p.Built) (hd : p.method m = .ok d) :
    ∃ g t, p.controlFlow m = .ok g ∧ (∀ schedule, p.liveVariables.solve g schedule = .ok t) ∧
      ∀ n ∈ g.nodes, ∃ before after, (t.before .backward).find? n = some before ∧
        (t.after .backward).find? n = some after ∧ ∀ v,
          (v ∈ after ↔ ∃ between last,
            List.IsChain (fun a b => b ∈ g.succs a) (n :: between ++ [last]) ∧
            (∀ s ∈ between, ¬ p.Defines s v) ∧ p.Uses last v) ∧
          (v ∈ before ↔ p.Uses n v ∨ ¬ p.Defines n v ∧ v ∈ after) := by
  have hl := hp.layout
  obtain ⟨g, hg, -, -, -, hnodes, hclosed⟩ := hl.controlFlow hd
  have hnodup : g.nodes.Nodup := hnodes ▸ d.nodup_nodes
  have hmono := hl.liveVariables_monotonic hg
  obtain ⟨t, ht, hleast⟩ := hmono.solve_eq_ok hclosed hnodup
  have hbalances := hl.balances hg (ht .workList)
  have hle : t.facts ≤ p.usedFacts g := by
    refine hmono.solve_le hclosed hnodup (ht .workList) (bounds_usedFacts fun s hs => ?_) ?_
    · exact hl.instr_of_mem_nodes hd (hnodes ▸ hs)
    · rintro _ ⟨⟩
      exact bot_le
  refine ⟨g, t, hg, ht, fun n hn => ⟨_, _, Dataflow.Table.find?_leaving hleast.1.covers hn,
    Dataflow.Table.find?_arriving hleast.1.covers hn, fun v => ⟨?_, hbalances.mem_before n hn v⟩⟩⟩
  exact ⟨fun hv => mem_arriving_usedFacts.1 (SortedSet.le_iff.1 (hle.1 n) v hv),
    fun hv => hbalances.mem_of_usedLater hclosed hn hv⟩

/-- The receiver of the call is live behind the branch at the end of the loop. -/
theorem Built.mem_live_iff_sample : ∃ g t after, sample.controlFlow ⟨2⟩ = .ok g ∧
    (∀ schedule, sample.liveVariables.solve g schedule = .ok t) ∧
    (t.after .backward).find? ⟨13⟩ = some after ∧ ⟨3⟩ ∈ after := by
  have hd : sample.method ⟨2⟩ = .ok ⟨"main", ⟨0⟩, true, false, [], none, [], 8, 6⟩ := rfl
  obtain ⟨g, t, hg, ht, hlive⟩ := sample_built.mem_live_iff hd
  have hback : g.succs ⟨13⟩ = [⟨10⟩, ⟨14⟩] := succs_stmtAt hg hd (k := 4) (by decide) rfl
  have hstore : g.succs ⟨10⟩ = [⟨11⟩] := succs_stmtAt hg hd (k := 1) (by decide) rfl
  obtain ⟨d, hd', -, -, -, hnodes, -⟩ := sample_built.layout.of_controlFlow hg
  cases hd.symm.trans hd'
  obtain ⟨_, after, -, hafter, hmem⟩ := hlive ⟨13⟩ (hnodes ▸ by decide)
  refine ⟨g, t, after, hg, ht, hafter, ((hmem ⟨3⟩).1).2 ⟨[⟨10⟩], ⟨11⟩, ?_, ?_, ?_⟩⟩
  · exact List.isChain_cons_cons.2 ⟨hback ▸ .head _, List.isChain_pair.2 (hstore ▸ .head _)⟩
  · rintro s hs ⟨i, hi, hdef⟩
    cases List.mem_singleton.1 hs
    cases hi
    cases hdef
  · exact ⟨_, rfl, by decide⟩

end Program

end ProgramFlow
