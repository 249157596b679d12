import ProgramFlow.Liveness
import ProgramFlow.Proofs.Collection.SortedSet
import ProgramFlow.Proofs.Constants.Transfer
import ProgramFlow.Proofs.Dataflow.Schedules
/-!
Constant propagation and live variables in the methods of a built program.
-/
namespace ProgramFlow

namespace Instr

theorem liveBefore_mono (i : Instr) : Monotone i.liveBefore := by
  intro live live' h
  apply SortedSet.le_iff.2
  intro v hv
  rw [mem_liveBefore] at hv ⊢
  exact hv.imp_right fun hv => ⟨SortedSet.le_iff.1 h v hv.1, hv.2⟩

end Instr

namespace Program

variable {p : Program}

/-- The variables that some statement reads, once for each place. -/
def reads (p : Program) : List VarId := p.stmts.toList.flatMap (·.instr.uses)

theorem mem_reads {s : StmtId} {i : Instr} (hi : p.instr s = .ok i) {v : VarId} (hv : v ∈ i.uses) :
    v ∈ p.reads := by
  obtain ⟨x, hx, rfl⟩ := instr_eq_ok.1 hi
  exact List.mem_flatMap.2
    ⟨x, Array.mem_toList_iff.2 (Array.mem_of_getElem? (fetch_eq_ok_iff.1 hx)), hv⟩

/-- Only variables that are read somewhere are ever live. -/
def liveHeight (p : Program) : Dataflow.Height LiveSet where
  Within live := ∀ v ∈ live, v ∈ p.reads
  rank := SortedSet.size
  bound := p.reads.length
  rank_le := SortedSet.size_le_length
  rank_lt := fun _ => SortedSet.size_lt_size

theorem liveVariables_monotonic {g : ControlFlowGraph} (h : ∀ s ∈ g.nodes, ∃ i, p.instr s = .ok i) :
    p.liveVariables.Monotonic g p.liveHeight where
  start_eq := rfl
  merge_eq := fun _ _ => rfl
  bot_within := fun _ hv => (SortedSet.not_mem_empty hv).elim
  sup_within := fun hx hy v hv => (SortedSet.mem_union.1 hv).elim (hx v) (hy v)
  bound_le := le_rfl
  boundary := ⟨∅, rfl, fun _ hv => (SortedSet.not_mem_empty hv).elim⟩
  transfer := by
    intro s hs
    obtain ⟨i, hi⟩ := h s (Dataflow.Direction.mem_order.1 hs).1
    refine ⟨i.liveBefore, fun live => by simp [liveVariables, hi], i.liveBefore_mono, ?_⟩
    intro live hlive v hv
    rcases Instr.mem_liveBefore.1 hv with hv | hv
    · exact mem_reads hi hv
    · exact hlive v hv.1

theorem Layout.liveVariables_monotonic (hl : p.Layout) {m : MethodId} {g : ControlFlowGraph}
    (hg : p.controlFlow m = .ok g) : p.liveVariables.Monotonic g p.liveHeight := by
  obtain ⟨d, hd, -, -, -, hnodes, -⟩ := hl.of_controlFlow hg
  exact Program.liveVariables_monotonic fun s hs => hl.instr_of_mem_nodes hd (hnodes ▸ hs)

theorem constantPropagation_monotonic (hp : p.Layout) (hv : p.Declared) {g : ControlFlowGraph}
    {d : MethodDecl} (hd : p.method g.method = .ok d)
    (hi : ∀ s ∈ g.nodes, ∃ i, p.instr s = .ok i)
    (hs : ∀ s ∈ g.nodes, ∀ tag, ¬ p.Unsupported s tag) :
    p.constantPropagation.Monotonic g (Fact.height p.vars.size) where
  start_eq := rfl
  merge_eq := fun _ _ => rfl
  bot_within := Fact.within_bot _
  sup_within := Fact.Within.merge
  bound_le := le_rfl
  boundary := hp.parameterFact_eq_ok hd
  transfer := by
    intro s hmem
    have hn := (Dataflow.Direction.mem_order.1 hmem).1
    obtain ⟨i, hi⟩ := hi s hn
    exact hv.constantTransfer_eq_ok hi (hs s hn)

theorem Layout.supported (hp : p.Layout) {m : MethodId} {d : MethodDecl}
    (hd : p.method m = .ok d) (hs : ∀ s ∈ d.body, ∀ tag, ¬ p.Unsupported s tag) {s : StmtId}
    (hmem : s ∈ d.nodes) (tag : String) : ¬ p.Unsupported s tag := by
  rcases MethodDecl.mem_nodes.1 hmem with rfl | hmem | rfl
  · rintro ⟨v, reads, hi, -⟩
    cases hi.symm.trans (instr_eq_ok.2 ⟨_, hp.entry hd, rfl⟩)
  · exact hs s hmem tag
  · rintro ⟨v, reads, hi, -⟩
    cases hi.symm.trans (instr_eq_ok.2 ⟨_, hp.exit hd, rfl⟩)

theorem order_constantPropagation {g : ControlFlowGraph} {d : MethodDecl} (he : g.entry = d.entry)
    (hn : g.nodes = d.nodes) : p.constantPropagation.direction.order g = d.body ++ [d.exit] := by
  have hbody : ∀ s ∈ d.body ++ [d.exit], decide (s ≠ d.entry) = true := by
    intro s hs
    rw [decide_eq_true_eq]
    rintro rfl
    rcases List.mem_append.1 hs with hs | hs
    · exact d.entry_not_mem_body hs
    · exact d.entry_ne_exit (List.mem_singleton.1 hs)
  simp only [constantPropagation, Dataflow.Direction.order, he, hn, MethodDecl.nodes,
    List.cons_append]
  rw [List.filter_cons_of_neg (by simp), List.filter_eq_self.2 hbody]

/-- Both schedules answer alike in every method: with the least solution, or with the first
statement of the body that constant propagation does not support. -/
theorem Built.solve_schedules (hp : p.Built) (hv : p.Declared) {m : MethodId} {d : MethodDecl}
    (hd : p.method m = .ok d) : ∃ g, p.controlFlow m = .ok g ∧
      (∃ t, (∀ schedule, p.liveVariables.solve g schedule = .ok t) ∧
        IsLeast {t | p.liveVariables.Solves g t} t) ∧
      ((∀ s ∈ d.body, ∀ tag, ¬ p.Unsupported s tag) →
        ∃ t, (∀ schedule, p.constantPropagation.solve g schedule = .ok t) ∧
          IsLeast {t | p.constantPropagation.Solves g t} t) ∧
      ∀ l s l' tag, d.body = l ++ s :: l' → (∀ r ∈ l, ∀ tag, ¬ p.Unsupported r tag) →
        p.Unsupported s tag → ∀ schedule, p.constantPropagation.solve g schedule =
          .error (.unsupportedConstruct .constants s tag) := by
  have hl := hp.layout
  obtain ⟨g, hg, rfl, hentry, -, hnodes, hclosed⟩ := hl.controlFlow hd
  have hnodup : g.nodes.Nodup := hnodes ▸ d.nodup_nodes
  have hinstr : ∀ s ∈ g.nodes, ∃ i, p.instr s = .ok i := fun s hs =>
    hl.instr_of_mem_nodes hd (hnodes ▸ hs)
  refine ⟨g, hg, ?_, fun hs => ?_, ?_⟩
  · exact (liveVariables_monotonic hinstr).solve_eq_ok hclosed hnodup
  · have hmono := constantPropagation_monotonic hl hv hd hinstr fun s hmem =>
      hl.supported hd hs (hnodes ▸ hmem)
    exact hmono.solve_eq_ok hclosed hnodup
  · intro l s l' tag hbody hbefore hs schedule
    obtain ⟨b, hb, -⟩ := hl.parameterFact_eq_ok hd
    have horder : p.constantPropagation.direction.order g = l ++ s :: (l' ++ [d.exit]) := by
      rw [order_constantPropagation hentry hnodes, hbody, List.append_assoc, List.cons_append]
    refine Dataflow.Problem.solve_eq_error hclosed hnodup hb horder (fun r hr f => ?_)
      hs.constantTransfer_eq_error schedule
    have hmem : r ∈ d.body := hbody ▸ List.mem_append_left _ hr
    obtain ⟨i, hi⟩ := hinstr r (hnodes ▸ MethodDecl.mem_nodes.2 (.inr (.inl hmem)))
    obtain ⟨t, ht, -⟩ := hv.constantTransfer_eq_ok hi (hbefore r hr)
    exact ⟨t f, ht f⟩

theorem Built.solve_schedules_sample :
    (∃ g t, sample.controlFlow ⟨2⟩ = .ok g ∧
      ∀ schedule, sample.constantPropagation.solve g schedule = .ok t) ∧
    ∃ g, sample.controlFlow ⟨1⟩ = .ok g ∧ ∀ schedule,
      sample.constantPropagation.solve g schedule =
        .error (.unsupportedConstruct .constants ⟨6⟩ "dynamic") := by
  constructor
  · obtain ⟨g, hg, -, hok, -⟩ := sample_built.solve_schedules sample_scoped.declared
      (m := ⟨2⟩) rfl
    obtain ⟨t, ht, -⟩ := hok fun s hs => by
      obtain ⟨i, -, rfl⟩ := MethodDecl.mem_body.1 hs
      apply sample_supported
      intro he
      have hle : 9 ≤ 6 := Nat.le.intro (congrArg Id.index he)
      exact absurd hle (by decide)
    exact ⟨g, t, hg, ht⟩
  · obtain ⟨g, hg, -, -, hfail⟩ := sample_built.solve_schedules sample_scoped.declared
      (m := ⟨1⟩) rfl
    refine ⟨g, hg, hfail [⟨5⟩] ⟨6⟩ [] "dynamic" rfl ?_ ⟨_, _, rfl, rfl⟩⟩
    rintro r hr tag ⟨v, reads, hi, -⟩
    rw [List.mem_singleton.1 hr] at hi
    cases hi

end Program

end ProgramFlow
