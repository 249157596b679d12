import ProgramFlow.Proofs.DeadCode.Detection
import ProgramFlow.Proofs.DeadCode.Removal
/-!
Dead code detection classifies exactly. Whatever facts it is given, it reports the statements that no
feasible edges lead to from the entry and the reached assignments that nothing needs; and feasible
edges lead on from every reached node but the exit.
-/
namespace ProgramFlow

namespace Program

variable {p : Program} {e : Evidence}

/-- The fact before its source admits the edge. -/
def Feasible (p : Program) (e : Evidence) (edge : Edge) : Prop :=
  edge ∈ e.graph.edges ∧ ∃ i, p.instr edge.source = .ok i ∧
    i.admits (e.factAt edge.source) edge.kind = true

/-- The nodes that feasible edges lead to from the entry. -/
inductive Reached (p : Program) (e : Evidence) : StmtId → Prop
  | entry : Reached p e e.graph.entry
  | step {edge : Edge} (h : Reached p e edge.source) (hf : p.Feasible e edge) :
    Reached p e edge.target

theorem Reached.mem_nodes (hc : e.graph.Closed) {n : StmtId} (h : p.Reached e n) :
    n ∈ e.graph.nodes := by
  cases h with
  | entry => exact hc.entry
  | step _ hf => exact (hc.edges _ hf.1).2

section Graph

variable {m : MethodId} {d : MethodDecl} (hl : p.Layout) (hg : p.controlFlow m = .ok e.graph)
  (hd : p.method m = .ok d) {n : StmtId} (hn : n ∈ e.graph.nodes) {i : Instr}
  (hi : p.instr n = .ok i)
include hl hg hd hn hi

theorem Layout.feasibleEdges_eq (f : Fact) : feasibleEdges i f (e.graph.outEdges n) =
    (e.graph.outEdges n).filter fun edge => i.admits f edge.kind := by
  obtain ⟨d', hd', -, -, -, hnodes, -⟩ := hl.of_controlFlow hg
  cases hd.symm.trans hd'
  rw [hnodes] at hn
  rcases MethodDecl.mem_nodes.1 hn with rfl | hn | rfl
  · cases hi.symm.trans (instr_eq_ok.2 ⟨_, hl.entry hd, rfl⟩)
    exact (List.filter_true _).symm
  · obtain ⟨k, hk, rfl⟩ := MethodDecl.mem_body.1 hn
    exact feasibleEdges_stmtAt hg hd hk hi f
  · cases hi.symm.trans (instr_eq_ok.2 ⟨_, hl.exit hd, rfl⟩)
    exact (List.filter_true _).symm

/-- Feasible edges lead on from every node but the exit. -/
theorem Layout.feasibleEdges_ne_nil (f : Fact) (hne : n ≠ d.exit) :
    feasibleEdges i f (e.graph.outEdges n) ≠ [] := by
  obtain ⟨d', hd', -, -, -, hnodes, -⟩ := hl.of_controlFlow hg
  cases hd.symm.trans hd'
  rw [hnodes] at hn
  have hout := hl.outEdges_ne_nil hg hd hn hne
  have hbody : i.isEnd = false → ∃ k < d.length, n = d.stmtAt k := by
    intro hend
    obtain ⟨d', hd', hb, -⟩ := hl.contains_of_mem hd hn hi hend
    cases hd.symm.trans hd'
    exact MethodDecl.mem_body.1 hb
  cases i with
  | branch cond t =>
    obtain ⟨k, hk, rfl⟩ := hbody rfl
    cases hc : f.evaluate cond with
    | constant c => simp [feasibleEdges_branch hg hd hk hi hc]
    | _ => simpa [feasibleEdges, hc] using hout
  | switch v cases otherwise =>
    obtain ⟨k, hk, rfl⟩ := hbody rfl
    cases hc : f.get v with
    | constant c =>
      rw [feasibleEdges_switch hg hd hk hi hc]
      split
      · next hmem => simpa [List.filter_eq_nil_iff] using hmem
      · simp
    | _ => simpa [feasibleEdges, hc] using hout
  | _ => exact hout

theorem Layout.mem_feasibleEdges_iff {edge : Edge} :
    edge ∈ feasibleEdges i (e.factAt n) (e.graph.outEdges n) ↔
      p.Feasible e edge ∧ edge.source = n := by
  rw [hl.feasibleEdges_eq hg hd hn hi, List.mem_filter,
    (indexed_of_controlFlow hg).mem_outEdges]
  constructor
  · rintro ⟨⟨hedge, rfl⟩, hf⟩
    exact ⟨⟨hedge, i, hi, hf⟩, rfl⟩
  · rintro ⟨⟨hedge, i', hi', hf⟩, rfl⟩
    cases hi.symm.trans hi'
    exact ⟨⟨hedge, rfl⟩, hf⟩

end Graph

/-- What holds between two steps of the walk: it has found reached nodes only, each once. -/
structure Finding (p : Program) (e : Evidence) (w : NodeWalk) : Prop where
  reached : ∀ n ∈ w.reached, p.Reached e n
  queued : ∀ n ∈ w.queue, p.Reached e n
  nodup : w.reached.Nodup

section Walk

variable {m : MethodId} (hl : p.Layout) (hg : p.controlFlow m = .ok e.graph)
include hl hg

theorem Layout.finding_step {w : NodeWalk} (h : p.Finding e w) :
    (p.reachStep e w).Satisfies (p.Finding e)
      (fun r => ∀ l, r = .ok l → p.Finding e ⟨l, []⟩) := by
  obtain ⟨d, hd, -, -, -, -, hclosed⟩ := hl.of_controlFlow hg
  obtain ⟨reached, queue⟩ := w
  cases queue with
  | nil =>
    intro l hok
    cases hok
    exact h
  | cons n queue =>
    obtain ⟨hn, hqueue⟩ := List.forall_mem_cons.1 h.queued
    simp only [reachStep]
    split
    · intro l hok
      cases hok
    · next succs hsuccs =>
      let new := succs.eraseDups.filter (· ∉ reached)
      obtain ⟨i, hi, hok⟩ := Outcome.bind_eq_ok.1 hsuccs
      cases hok
      have hnew : ∀ s ∈ new, s ∉ reached ∧ p.Reached e s := by
        intro s hs
        obtain ⟨hs, hnot⟩ := List.mem_filter.1 hs
        obtain ⟨edge, hedge, rfl⟩ := List.mem_map.1 (List.mem_eraseDups.1 hs)
        obtain ⟨hf, rfl⟩ :=
          (hl.mem_feasibleEdges_iff hg hd (hn.mem_nodes hclosed) hi).1 hedge
        exact ⟨of_decide_eq_true hnot, .step hn hf⟩
      refine ⟨?_, ?_, ?_⟩
      · exact List.forall_mem_append.2 ⟨h.reached, fun s hs => (hnew s hs).2⟩
      · exact List.forall_mem_append.2 ⟨hqueue, fun s hs => (hnew s hs).2⟩
      · refine List.nodup_append.2 ⟨h.nodup, (nodup_eraseDups _).filter _, ?_⟩
        rintro s hs _ hs' rfl
        exact (hnew s hs').1 hs

/-- The walk finds exactly the nodes that feasible edges lead to. -/
theorem Layout.reachedNodes_iff {reached : List StmtId} (h : p.reachedNodes e = .ok reached) :
    reached.Nodup ∧ ∀ n, n ∈ reached ↔ p.Reached e n := by
  obtain ⟨d, hd, -, -, -, hnodes, hclosed⟩ := hl.of_controlFlow hg
  have hfinding : p.Finding e ⟨reached, []⟩ := by
    have hstart : p.Finding e ⟨[e.graph.entry], [e.graph.entry]⟩ :=
      ⟨by simpa using .entry, by simpa using .entry, List.nodup_singleton _⟩
    unfold reachedNodes at h
    split at h
    · next r hr => exact Progress.of_iterate hr (fun _ hw => hl.finding_step hg hw) hstart reached h
    · cases h
  refine ⟨hfinding.nodup, fun n => ⟨hfinding.reached n, fun hn => ?_⟩⟩
  induction hn with
  | entry => exact (reaching_of_reachedNodes h).entry
  | @step edge hs hf ih =>
    obtain ⟨i, hi, -⟩ := hf.2
    exact mem_reached_of_mem_feasibleEdges h ih hi
      ((hl.mem_feasibleEdges_iff hg hd (hs.mem_nodes hclosed) hi).2 ⟨hf, rfl⟩)

end Walk

section Report

open Classical

/-- The report is what the feasible edges and the live variables say of the body, and they keep the
walk going: a decided branch keeps the edge it takes, and a decided switch all cases of its value or
else the default. -/
structure Classified (p : Program) (e : Evidence) (d : MethodDecl) (reached : List StmtId)
    (r : DeadCodeReport) : Prop where
  reached_iff : ∀ n, n ∈ reached ↔ p.Reached e n
  dead : r.dead = d.body.filter fun n => ¬ p.Reached e n ∨ p.Reached e n ∧ p.Useless e n
  nodup : r.dead.Nodup
  unreachable : r.unreachable = d.body.countP fun n => ¬ p.Reached e n
  useless : r.useless = d.body.countP fun n => p.Reached e n ∧ p.Useless e n
  total : r.unreachable + r.useless = r.dead.length
  leads_on : ∀ n ∈ reached, n ≠ d.exit → ∃ i, p.instr n = .ok i ∧
    feasibleEdges i (e.factAt n) (e.graph.outEdges n) ≠ []
  branch : ∀ k < d.length, ∀ cond t c, p.instr (d.stmtAt k) = .ok (.branch cond t) →
    (e.factAt (d.stmtAt k)).evaluate cond = .constant c →
    feasibleEdges (.branch cond t) (e.factAt (d.stmtAt k)) (e.graph.outEdges (d.stmtAt k)) =
      [if c = 0 then ⟨.ifFalse, d.stmtAt k, d.point (k + 1)⟩ else ⟨.ifTrue, d.stmtAt k, d.point t⟩]
  switch : ∀ k < d.length, ∀ v cases otherwise c,
    p.instr (d.stmtAt k) = .ok (.switch v cases otherwise) →
    (e.factAt (d.stmtAt k)).get v = .constant c →
    feasibleEdges (.switch v cases otherwise) (e.factAt (d.stmtAt k))
        (e.graph.outEdges (d.stmtAt k)) =
      if c ∈ cases.map Prod.fst then
        (cases.filter (·.1 = c)).map fun x => ⟨.switchCase c, d.stmtAt k, d.point x.2⟩
      else [⟨.switchDefault, d.stmtAt k, d.point otherwise⟩]

variable {m : MethodId} {d : MethodDecl} {reached : List StmtId} {r : DeadCodeReport}

/-- Only statements of the body are useless. -/
theorem Layout.mem_body_of_useless (hl : p.Layout) (hd : p.method m = .ok d) {n : StmtId}
    (hn : n ∈ d.nodes) (h : p.Useless e n) : n ∈ d.body := by
  obtain ⟨i, v, hi, hv, -⟩ := h
  have hend : i.isEnd = false := by
    cases i <;> first | rfl | cases hv
  obtain ⟨d', hd', hb, -⟩ := hl.contains_of_mem hd hn hi hend
  cases hd.symm.trans hd'
  exact hb

/-- The reached nodes that are useless stand in the body, where they are counted. -/
theorem Layout.length_useless (hl : p.Layout) (hg : p.controlFlow m = .ok e.graph)
    (hd : p.method m = .ok d) {useless : List StmtId} (hnodup : useless.Nodup)
    (hmem : ∀ n, n ∈ useless ↔ p.Reached e n ∧ p.Useless e n) :
    useless.length = d.body.countP fun n => p.Reached e n ∧ p.Useless e n := by
  obtain ⟨d', hd', -, -, -, hnodes, hclosed⟩ := hl.of_controlFlow hg
  cases hd.symm.trans hd'
  rw [List.countP_eq_length_filter]
  apply List.Perm.length_eq
  refine (List.perm_ext_iff_of_nodup hnodup (d.nodup_body.filter _)).2 fun n => ?_
  rw [hmem, List.mem_filter, decide_eq_true_eq]
  refine (and_iff_right_of_imp fun ⟨hn, hu⟩ => ?_).symm
  exact hl.mem_body_of_useless hd (hnodes ▸ hn.mem_nodes hclosed) hu

theorem Layout.classified (hl : p.Layout) (hg : p.controlFlow m = .ok e.graph)
    (hd : p.method m = .ok d) (hreached : p.reachedNodes e = .ok reached)
    (hr : p.detectDeadCode e = .ok r) : p.Classified e d reached r := by
  obtain ⟨d', hd', hm, -, hexit, hnodes, hclosed⟩ := hl.of_controlFlow hg
  cases hd.symm.trans hd'
  obtain ⟨hnodup, hiff⟩ := hl.reachedNodes_iff hg hreached
  obtain ⟨reached', useless, d', hreached', hd', hsub, hmem, rfl⟩ := detectDeadCode_eq_ok hr
  cases hreached.symm.trans hreached'
  cases (hm ▸ hd).symm.trans hd'
  simp only [hiff] at hmem
  have hdead : (d.body.filter fun n => n ∉ reached ∨ n ∈ useless) =
      d.body.filter fun n => ¬ p.Reached e n ∨ p.Reached e n ∧ p.Useless e n :=
    List.filter_congr fun n _ => decide_eq_decide.2 (by rw [hmem, hiff])
  have hunreachable : (d.body.filter (· ∉ reached)).length =
      d.body.countP fun n => ¬ p.Reached e n := by
    rw [← List.countP_eq_length_filter]
    exact List.countP_congr fun n _ => by simp [hiff]
  have huseless := hl.length_useless hg hd (hnodup.sublist hsub) hmem
  exact {
    reached_iff := hiff
    dead := hdead
    nodup := d.nodup_body.filter _
    unreachable := hunreachable
    useless := huseless
    total := by
      rw [hdead, hunreachable, huseless, ← List.countP_eq_length_filter]
      simp only [Bool.decide_or]
      refine (countP_or fun n _ hn => ?_).symm
      exact decide_eq_false fun h => of_decide_eq_true hn h.1
    leads_on := by
      intro n hn hne
      have hn := ((hiff n).1 hn).mem_nodes hclosed
      obtain ⟨i, hi⟩ := hl.instr_of_mem_nodes hd (hnodes ▸ hn)
      exact ⟨i, hi, hl.feasibleEdges_ne_nil hg hd hn hi _ hne⟩
    branch := fun k hk cond t c hi hc => feasibleEdges_branch hg hd hk hi hc
    switch := fun k hk v cases otherwise c hi hc => feasibleEdges_switch hg hd hk hi hc }

/-- Whatever facts and live variables it is given, detection has a report, and it is exact. -/
theorem Built.classifies (hp : p.Built) (hd : p.method m = .ok d) (facts : SortedMap StmtId Fact)
    (live : SortedMap StmtId LiveSet) : ∃ g reached report, p.controlFlow m = .ok g ∧
      p.reachedNodes ⟨g, facts, live⟩ = .ok reached ∧
      p.detectDeadCode ⟨g, facts, live⟩ = .ok report ∧
      p.Classified ⟨g, facts, live⟩ d reached report := by
  have hl := hp.layout
  obtain ⟨g, hg, hm, -, -, hnodes, hclosed⟩ := hl.controlFlow hd
  have hinstr : ∀ n ∈ g.nodes, ∃ i, p.instr n = .ok i := fun n hn =>
    hl.instr_of_mem_nodes hd (hnodes ▸ hn)
  let e : Evidence := ⟨g, facts, live⟩
  obtain ⟨reached, hreached, -⟩ := exists_reachedNodes (e := e) hclosed hinstr
  obtain ⟨report, hreport⟩ := exists_detectDeadCode (e := e) hclosed hinstr (hm.symm ▸ hd)
  exact ⟨g, reached, report, hg, hreached, hreport, hl.classified hg hd hreached hreport⟩

/-- With the first variable known to be one, the branch is decided, and with no variable live, both
reached assignments are useless. -/
theorem Built.classifies_wasteful : ∃ g reached report, wasteful.controlFlow ⟨0⟩ = .ok g ∧
    wasteful.Classified ⟨g, .ofList [(⟨2⟩, .ofList [(⟨1⟩, .constant 1)])], ∅⟩
      ⟨"run", ⟨0⟩, true, false, [⟨0⟩], none, [⟨0⟩], 0, 6⟩ reached report ∧
    report = ⟨⟨0⟩, [⟨1⟩, ⟨3⟩, ⟨5⟩], 1, 2⟩ := by
  obtain ⟨g, reached, report, hg, -, hreport, hclass⟩ := wasteful_built.classifies (m := ⟨0⟩) rfl
    (.ofList [(⟨2⟩, .ofList [(⟨1⟩, .constant 1)])]) ∅
  have hdetect : (do
      let g ← wasteful.controlFlow ⟨0⟩
      wasteful.detectDeadCode ⟨g, .ofList [(⟨2⟩, .ofList [(⟨1⟩, .constant 1)])], ∅⟩) =
        .ok ⟨⟨0⟩, [⟨1⟩, ⟨3⟩, ⟨5⟩], 1, 2⟩ := by
    decide +kernel
  rw [hg, Outcome.ok_bind] at hdetect
  exact ⟨g, reached, report, hg, hclass, Except.ok.inj (hreport.symm.trans hdetect)⟩

end Report

end Program

end ProgramFlow
