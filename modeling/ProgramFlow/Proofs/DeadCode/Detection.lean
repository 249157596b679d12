import ProgramFlow.Proofs.DeadCode.Feasibility
import ProgramFlow.Proofs.Graph.Construction
/-!
Dead code detection always has a report. Its walk ends because a node enters the queue once at most,
along an edge whose target has not been reached before.
-/
namespace ProgramFlow

theorem nodup_eraseDups {α : Type} [BEq α] [LawfulBEq α] (l : List α) : l.eraseDups.Nodup := by
  induction hn : l.length using Nat.strongRecOn generalizing l with
  | ind n ih =>
    cases l with
    | nil => exact .nil
    | cons a l =>
      rw [List.eraseDups_cons, List.nodup_cons, List.mem_eraseDups]
      have hle := List.length_filter_le (fun b => !b == a) l
      refine ⟨by simp, ih _ ?_ _ rfl⟩
      rw [← hn, List.length_cons]
      omega

theorem mem_of_mem_feasibleEdges {i : Instr} {f : Fact} {edges : List Edge} {e : Edge}
    (h : e ∈ feasibleEdges i f edges) : e ∈ edges := by
  unfold feasibleEdges at h
  split at h
  · split at h
    · exact (List.mem_filter.1 h).1
    · exact h
  · split at h
    · split at h
      · exact (List.mem_filter.1 h).1
      · exact (List.mem_filter.1 h).1
    · exact h
  · exact h

namespace Program

variable {p : Program} {e : Evidence}

/-- The nodes still to look at, and the edges to nodes that have not been reached. -/
def NodeWalk.work (e : Evidence) (w : NodeWalk) : Nat :=
  w.queue.length + e.graph.edges.countP (·.target ∉ w.reached)

/-- Nodes that edges lead to and that are reached now are no longer counted. -/
theorem NodeWalk.work_visit {reached queue new : List StmtId} {n : StmtId} (hnodup : new.Nodup)
    (hnew : ∀ s ∈ new, s ∉ reached ∧ ∃ edge ∈ e.graph.edges, edge.target = s) :
    NodeWalk.work e ⟨reached ++ new, queue ++ new⟩ < NodeWalk.work e ⟨reached, n :: queue⟩ := by
  have hlength : new.length ≤ e.graph.edges.countP (·.target ∈ new) := by
    have hsub : new ⊆ (e.graph.edges.filter (·.target ∈ new)).map (·.target) := by
      intro s hs
      obtain ⟨edge, hedge, rfl⟩ := (hnew s hs).2
      exact List.mem_map_of_mem (List.mem_filter.2 ⟨hedge, decide_eq_true hs⟩)
    have hle := (hnodup.subperm hsub).length_le
    rwa [List.length_map, ← List.countP_eq_length_filter] at hle
  have hcount : e.graph.edges.countP (·.target ∈ new) +
      e.graph.edges.countP (·.target ∉ reached ++ new) ≤
        e.graph.edges.countP (·.target ∉ reached) := by
    apply countP_add_countP_le
    · intro edge _ hedge
      exact decide_eq_true (hnew _ (of_decide_eq_true hedge)).1
    · intro edge _ hedge
      exact decide_eq_true fun hmem => of_decide_eq_true hedge (List.mem_append_left _ hmem)
    · intro edge _ hedge
      exact decide_eq_false fun hnot =>
        hnot (List.mem_append_right _ (of_decide_eq_true hedge))
  simp only [work, List.length_append, List.length_cons]
  omega

section

variable (hc : e.graph.Closed) (hi : ∀ n ∈ e.graph.nodes, ∃ i, p.instr n = .ok i)
include hc hi

theorem exists_feasibleSuccs {n : StmtId} (hn : n ∈ e.graph.nodes) :
    ∃ l, p.feasibleSuccs e n = .ok l ∧ ∀ s ∈ l, s ∈ e.graph.nodes ∧
      ∃ edge ∈ e.graph.edges, edge.target = s := by
  obtain ⟨i, hi⟩ := hi n hn
  refine ⟨_, by simp only [feasibleSuccs, hi, Outcome.ok_bind, Outcome.pure_eq]; rfl, ?_⟩
  intro s hs
  obtain ⟨edge, hedge, rfl⟩ := List.mem_map.1 hs
  have hedge := (hc.indexed.mem_outEdges.1 (mem_of_mem_feasibleEdges hedge)).1
  exact ⟨(hc.edges edge hedge).2, edge, hedge, rfl⟩

/-- The walk ends, with nodes of the graph. -/
theorem exists_reachedNodes :
    ∃ l, p.reachedNodes e = .ok l ∧ ∀ n ∈ l, n ∈ e.graph.nodes := by
  obtain ⟨r, hr, l, rfl, hl⟩ : ∃ r, Progress.iterate (p.reachStep e)
      (e.graph.edges.length + 2) ⟨[e.graph.entry], [e.graph.entry]⟩ = .finished r ∧
      ∃ l, r = .ok l ∧ ∀ n ∈ l, n ∈ e.graph.nodes := by
    apply Progress.iterate_ends (m := NodeWalk.work e)
      (P := fun w => (∀ n ∈ w.reached, n ∈ e.graph.nodes) ∧ ∀ n ∈ w.queue, n ∈ e.graph.nodes)
    · exact ⟨by simpa using hc.entry, by simpa using hc.entry⟩
    · have hcount := List.countP_le_length (l := e.graph.edges)
        (p := fun edge => decide (edge.target ∉ [e.graph.entry]))
      have hpow := Nat.lt_two_pow_self (n := e.graph.edges.length + 2)
      simp only [NodeWalk.work, List.length_singleton]
      omega
    · rintro ⟨reached, _ | ⟨n, queue⟩⟩ ⟨hreached, hqueue⟩
      · exact .inr ⟨_, rfl, reached, rfl, hreached⟩
      · rw [List.forall_mem_cons] at hqueue
        obtain ⟨hn, hqueue⟩ := hqueue
        obtain ⟨succs, hsuccs, hmem⟩ := exists_feasibleSuccs hc hi hn
        let new := succs.eraseDups.filter (· ∉ reached)
        have hnew : ∀ s ∈ new, s ∉ reached ∧ s ∈ succs := by
          intro s hs
          obtain ⟨hs, hnot⟩ := List.mem_filter.1 hs
          exact ⟨of_decide_eq_true hnot, List.mem_eraseDups.1 hs⟩
        have hstep : p.reachStep e ⟨reached, n :: queue⟩ =
            .running ⟨reached ++ new, queue ++ new⟩ := by
          simp only [reachStep, hsuccs, new]
        refine .inl ⟨_, hstep, ⟨fun s hs => ?_, fun s hs => ?_⟩, ?_⟩
        · rcases List.mem_append.1 hs with hs | hs
          · exact hreached s hs
          · exact (hmem s (hnew s hs).2).1
        · rcases List.mem_append.1 hs with hs | hs
          · exact hqueue s hs
          · exact (hmem s (hnew s hs).2).1
        · refine NodeWalk.work_visit ((nodup_eraseDups succs).filter _) fun s hs => ?_
          exact ⟨(hnew s hs).1, (hmem s (hnew s hs).2).2⟩
  exact ⟨l, by simp only [reachedNodes, hr], hl⟩

theorem exists_detectDeadCode {d : MethodDecl} (hd : p.method e.graph.method = .ok d) :
    ∃ report, p.detectDeadCode e = .ok report := by
  obtain ⟨reached, hreached, hnodes⟩ := exists_reachedNodes hc hi
  obtain ⟨useless, huseless⟩ : ∃ useless, reached.filterM (p.isUseless e) = .ok useless := by
    have hanswer : ∀ n ∈ reached, ∃ b, p.isUseless e n = .ok b := by
      intro n hn
      obtain ⟨i, hi⟩ := hi n (hnodes n hn)
      exact ⟨_, by simp only [isUseless, hi, Outcome.ok_bind, Outcome.pure_eq]; rfl⟩
    choose! answer hanswer using hanswer
    exact ⟨_, Outcome.filterM_eq_ok.2 ⟨answer, hanswer, rfl⟩⟩
  exact ⟨_, by simp only [detectDeadCode, hreached, hd, huseless, Outcome.ok_bind]; rfl⟩

end

end Program

end ProgramFlow
