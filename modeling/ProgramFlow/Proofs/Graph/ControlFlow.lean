import ProgramFlow.Graph.ControlFlow
import ProgramFlow.Proofs.Program.Layout
/-!
Every method of a built program has a control-flow graph, whose edges join its nodes. The edges kept
under their sources are those kept under their targets.
-/
namespace ProgramFlow

/-- If only one of the items contributes elements with a property, those are its own. -/
theorem filter_flatMap_eq {α β : Type} {l : List α} (hl : l.Nodup) {a : α} (ha : a ∈ l)
    {f : α → List β} {P : β → Bool} (h : ∀ c ∈ l, c ≠ a → ∀ b ∈ f c, P b = false) :
    (l.flatMap f).filter P = (f a).filter P := by
  induction l with
  | nil => cases ha
  | cons c l ih =>
    obtain ⟨hc, hl⟩ := List.nodup_cons.1 hl
    rw [List.forall_mem_cons] at h
    rw [List.flatMap_cons, List.filter_append]
    by_cases hca : c = a
    · subst hca
      have hrest : (l.flatMap f).filter P = [] := by
        refine List.filter_eq_nil_iff.2 fun b hb => ?_
        obtain ⟨x, hx, hb⟩ := List.mem_flatMap.1 hb
        simp [h.2 x hx (fun hxc => hc (hxc ▸ hx)) b hb]
      rw [hrest, List.append_nil]
    · have hfirst : (f c).filter P = [] :=
        List.filter_eq_nil_iff.2 fun b hb => by simp [h.1 hca b hb]
      rw [hfirst, List.nil_append, ih hl ((List.mem_cons.1 ha).resolve_left (Ne.symm hca)) h.2]

namespace ControlFlowGraph

theorem addEdges_eq (g : ControlFlowGraph) (es : List Edge) : g.addEdges es = { g with
    out := g.out.pushAll (·.source) id es
    into := g.into.pushAll (·.target) id es } := by
  induction es generalizing g with
  | nil => rfl
  | cons e es ih => exact ih (g.addEdge e)

/-- The edges are those of a list, in its order at both ends. -/
structure Holds (g : ControlFlowGraph) (es : List Edge) : Prop where
  outEdges : ∀ n, g.outEdges n = es.filter (·.source = n)
  inEdges : ∀ n, g.inEdges n = es.filter (·.target = n)

/-- The edges under their sources are the edges under their targets. -/
def Indexed (g : ControlFlowGraph) : Prop := ∃ es, g.Holds es

variable {g : ControlFlowGraph} {m n : StmtId} {e : Edge} {es : List Edge}

/-- A graph that starts without edges holds those that are added. -/
theorem holds_addEdges (hout : g.out = ∅) (hinto : g.into = ∅) : (g.addEdges es).Holds es := by
  rw [addEdges_eq, hout, hinto]
  constructor
  · intro n
    exact (Buckets.get_pushAll ..).trans (List.map_id _)
  · intro n
    exact (Buckets.get_pushAll ..).trans (List.map_id _)

theorem Holds.mem_edges (h : g.Holds es) : e ∈ g.edges ↔ e ∈ es := by
  have hget : ∀ n, g.out.get n = es.filter (·.source = n) := h.outEdges
  rw [edges, Buckets.mem_items]
  constructor
  · intro hmem
    obtain ⟨n, hmem⟩ := hmem
    rw [hget] at hmem
    exact List.mem_of_mem_filter hmem
  · intro hmem
    exact ⟨e.source, by simpa [hget] using hmem⟩

theorem Indexed.mem_outEdges (h : g.Indexed) : e ∈ g.outEdges n ↔ e ∈ g.edges ∧ e.source = n := by
  obtain ⟨es, h⟩ := h
  rw [h.outEdges, h.mem_edges]
  simp

theorem Indexed.mem_inEdges (h : g.Indexed) : e ∈ g.inEdges n ↔ e ∈ g.edges ∧ e.target = n := by
  obtain ⟨es, h⟩ := h
  rw [h.inEdges, h.mem_edges]
  simp

/-- An edge is as often under its source as under its target. -/
theorem Indexed.count_outEdges (h : g.Indexed) (e : Edge) :
    (g.outEdges e.source).count e = (g.inEdges e.target).count e := by
  obtain ⟨es, h⟩ := h
  rw [h.outEdges, h.inEdges, List.count_filter (by simp), List.count_filter (by simp)]

theorem Indexed.mem_preds_iff_mem_succs (h : g.Indexed) : m ∈ g.preds n ↔ n ∈ g.succs m := by
  simp only [preds, succs, List.mem_map, h.mem_inEdges, h.mem_outEdges]
  constructor
  · intro hpred
    obtain ⟨e, ⟨he, ht⟩, hs⟩ := hpred
    exact ⟨e, ⟨he, hs⟩, ht⟩
  · intro hsucc
    obtain ⟨e, ⟨he, hs⟩, ht⟩ := hsucc
    exact ⟨e, ⟨he, ht⟩, hs⟩

theorem Indexed.target_mem_succs (h : g.Indexed) (he : e ∈ g.edges) :
    e.target ∈ g.succs e.source :=
  List.mem_map_of_mem (h.mem_outEdges.2 ⟨he, rfl⟩)

/-- The two ends of the graph are nodes, and its edges join nodes and are found at both ends. -/
structure Closed (g : ControlFlowGraph) : Prop where
  entry : g.entry ∈ g.nodes
  exit : g.exit ∈ g.nodes
  edges : ∀ e ∈ g.edges, e.source ∈ g.nodes ∧ e.target ∈ g.nodes
  indexed : g.Indexed

theorem Closed.succs (h : g.Closed) (hn : n ∈ g.succs m) : n ∈ g.nodes := by
  obtain ⟨e, he, rfl⟩ := List.mem_map.1 hn
  exact (h.edges e (h.indexed.mem_outEdges.1 he).1).2

theorem Closed.preds (h : g.Closed) (hn : n ∈ g.preds m) : n ∈ g.nodes := by
  obtain ⟨e, he, rfl⟩ := List.mem_map.1 hn
  exact (h.edges e (h.indexed.mem_inEdges.1 he).1).1

end ControlFlowGraph

namespace MethodDecl

variable {m : MethodDecl}

theorem stmtAt_mem_nodes {i : Nat} (h : i < m.length) : m.stmtAt i ∈ m.nodes :=
  mem_nodes.2 (.inr (.inl (mem_body.2 ⟨i, h, rfl⟩)))

theorem exit_mem_nodes : m.exit ∈ m.nodes := mem_nodes.2 (.inr (.inr rfl))

/-- The statement at a position, or the exit behind the body. -/
def point (m : MethodDecl) (i : Nat) : StmtId := (m.stmtAt? i).getD m.exit

theorem point_of_lt {m : MethodDecl} {i : Nat} (h : i < m.length) : m.point i = m.stmtAt i := by
  simp [point, stmtAt?, h]

theorem point_of_le {m : MethodDecl} {i : Nat} (h : m.length ≤ i) : m.point i = m.exit := by
  simp [point, stmtAt?, Nat.not_lt.2 h]

theorem point_mem_nodes (m : MethodDecl) (i : Nat) : m.point i ∈ m.nodes := by
  rcases Nat.lt_or_ge i m.length with h | h
  · exact point_of_lt h ▸ stmtAt_mem_nodes h
  · exact point_of_le h ▸ exit_mem_nodes

theorem point_ne_entry (m : MethodDecl) (i : Nat) : m.point i ≠ m.entry := by
  rcases Nat.lt_or_ge i m.length with h | h
  · intro he
    exact m.entry_not_mem_body (mem_body.2 ⟨i, h, he ▸ (point_of_lt h)⟩)
  · exact point_of_le h ▸ m.entry_ne_exit.symm

theorem nodup_nodes (m : MethodDecl) : m.nodes.Nodup := by
  rw [nodes, List.cons_append, List.nodup_cons, List.nodup_append]
  refine ⟨?_, m.nodup_body, by simp, ?_⟩
  · rw [List.mem_append, List.mem_singleton, not_or]
    exact ⟨m.entry_not_mem_body, m.entry_ne_exit⟩
  · rintro s hs t ht rfl
    rw [List.mem_singleton] at ht
    exact m.exit_not_mem_body (ht ▸ hs)

/-- The positions where control may go on from an instruction, and the kinds of the ways there. The
exit stands behind the body. -/
def ways (m : MethodDecl) (i : Nat) : Instr → List (EdgeKind × Nat)
  | .goto t => [(.goto, t)]
  | .branch _ t => [(.ifTrue, t), (.ifFalse, i + 1)]
  | .switch _ cases otherwise =>
    cases.map (fun c => (.switchCase c.1, c.2)) ++ [(.switchDefault, otherwise)]
  | .ret _ => [(.ret, m.length)]
  | _ => [(if i + 1 < m.length then .fallThrough else .ret, i + 1)]

/-- A jump leads into the body or nowhere. -/
theorem jumpTarget_bind_eq_ok {β : Type} {t : Nat} {f : StmtId → Outcome β} {b : β} :
    m.jumpTarget t >>= f = .ok b ↔ t < m.length ∧ f (m.point t) = .ok b := by
  by_cases h : t < m.length
  · simp [jumpTarget, point, stmtAt?, h]
  · simp [jumpTarget, stmtAt?, h]

/-- Control goes along the ways of the instruction, if the targets of its jumps lie in the body. -/
theorem exits_eq_ok_iff {i : Nat} {instr : Instr} {r : List (EdgeKind × StmtId)} :
    m.exits i instr = .ok r ↔ (∀ t ∈ instr.targets, t < m.length) ∧
      r = (m.ways i instr).map fun w => (w.1, m.point w.2) := by
  cases instr with
  | goto t =>
    rw [exits, jumpTarget_bind_eq_ok]
    simp [ways, Instr.targets, eq_comm]
  | branch cond t =>
    rw [exits, jumpTarget_bind_eq_ok]
    simp [ways, Instr.targets, point, eq_comm]
  | switch v cases otherwise =>
    have hcase : ∀ (c : Int32 × Nat) (e : EdgeKind × StmtId),
        (do return (EdgeKind.switchCase c.1, ← m.jumpTarget c.2) : Outcome _) = .ok e ↔
          c.2 < m.length ∧ e = (.switchCase c.1, m.point c.2) := by
      intro c e
      rw [jumpTarget_bind_eq_ok]
      simp [eq_comm]
    have htargets : (∀ t ∈ (Instr.switch v cases otherwise).targets, t < m.length) ↔
        (∀ c ∈ cases, c.2 < m.length) ∧ otherwise < m.length := by
      simp only [Instr.targets, List.forall_mem_append, List.forall_mem_map,
        List.forall_mem_singleton]
    rw [htargets, exits, Outcome.bind_eq_ok]
    constructor
    · rintro ⟨taken, htaken, h⟩
      obtain ⟨hc, rfl⟩ := (Outcome.mapM_eq_ok_iff hcase).1 htaken
      obtain ⟨ho, h⟩ := jumpTarget_bind_eq_ok.1 h
      cases h
      exact ⟨⟨hc, ho⟩, by simp [ways]⟩
    · rintro ⟨⟨hc, ho⟩, rfl⟩
      refine ⟨_, (Outcome.mapM_eq_ok_iff hcase).2 ⟨hc, rfl⟩, jumpTarget_bind_eq_ok.2 ⟨ho, ?_⟩⟩
      simp [ways]
  | ret v => simp [exits, ways, Instr.targets, point_of_le, eq_comm]
  | _ =>
    by_cases h : i + 1 < m.length
    · simp [exits, ways, Instr.targets, stmtAt?, point_of_lt, h, eq_comm]
    · simp [exits, ways, Instr.targets, stmtAt?, point_of_le (Nat.not_lt.1 h), h, eq_comm]

theorem ways_ne_nil (m : MethodDecl) (i : Nat) (instr : Instr) : m.ways i instr ≠ [] := by
  cases instr <;> simp [ways]

/-- Control stays among the nodes of the method when the targets of the jumps exist. -/
theorem exits_eq_ok {i : Nat} {instr : Instr} (h : ∀ t ∈ instr.targets, t < m.length) :
    ∃ r, m.exits i instr = .ok r ∧ ∀ e ∈ r, e.2 ∈ m.nodes := by
  refine ⟨_, exits_eq_ok_iff.2 ⟨h, rfl⟩, fun e he => ?_⟩
  obtain ⟨w, -, rfl⟩ := List.mem_map.1 he
  exact m.point_mem_nodes w.2

end MethodDecl

namespace Program

variable {p : Program} {m : MethodId} {d : MethodDecl}

theorem edgesAt_eq {i : Nat} {instr : Instr} {r : List (EdgeKind × StmtId)}
    (hi : p.instr (d.stmtAt i) = .ok instr) (hr : d.exits i instr = .ok r) :
    p.edgesAt d i = .ok (r.map fun x => ⟨x.1, d.stmtAt i, x.2⟩) := by
  simp [Program.edgesAt, hi, hr]

theorem Layout.edgesAt (h : p.Layout) (hd : p.method m = .ok d) {i : Nat} (hi : i < d.length) :
    ∃ r, p.edgesAt d i = .ok r ∧ ∀ e ∈ r, e.source ∈ d.nodes ∧ e.target ∈ d.nodes := by
  obtain ⟨instr, hs, ht⟩ := h.body hd hi
  obtain ⟨exits, he, hmem⟩ := MethodDecl.exits_eq_ok (i := i) ht
  refine ⟨_, edgesAt_eq (instr_eq_ok.2 ⟨_, hs, rfl⟩) he, ?_⟩
  intro e hr
  obtain ⟨x, hx, rfl⟩ := List.mem_map.1 hr
  exact ⟨MethodDecl.stmtAt_mem_nodes hi, hmem x hx⟩

/-- The nodes of the graph are the statements of the method in order, and its edges join them. -/
theorem Layout.controlFlow (h : p.Layout) (hd : p.method m = .ok d) :
    ∃ g, p.controlFlow m = .ok g ∧ g.method = m ∧ g.entry = d.entry ∧ g.exit = d.exit ∧
      g.nodes = d.nodes ∧ g.Closed := by
  obtain ⟨edges, hedges⟩ := Outcome.exists_mapM (f := p.edgesAt d) (l := List.range d.length)
    fun i hi => (h.edgesAt hd (List.mem_range.1 hi)).imp fun _ => And.left
  let bare : ControlFlowGraph := { method := m, entry := d.entry, exit := d.exit, nodes := d.nodes }
  let start : Edge := ⟨.entry, d.entry, (d.stmtAt? 0).getD d.exit⟩
  let g := bare.addEdges (start :: edges.flatten)
  have hg : p.controlFlow m = .ok g := by
    simp only [Program.controlFlow, hd, hedges, Outcome.ok_bind]
    rfl
  have hholds : g.Holds (start :: edges.flatten) := ControlFlowGraph.holds_addEdges rfl rfl
  have hfields : g.method = m ∧ g.entry = d.entry ∧ g.exit = d.exit ∧ g.nodes = d.nodes := by
    simp only [g, ControlFlowGraph.addEdges_eq, bare, and_self]
  obtain ⟨hm, hentry, hexit, hnodes⟩ := hfields
  refine ⟨g, hg, hm, hentry, hexit, hnodes, ?_⟩
  exact {
    entry := by
      rw [hentry, hnodes]
      exact MethodDecl.mem_nodes.2 (.inl rfl)
    exit := by
      rw [hexit, hnodes]
      exact d.exit_mem_nodes
    edges := by
      intro e he
      rw [hnodes]
      rcases List.mem_cons.1 (hholds.mem_edges.1 he) with rfl | he
      · exact ⟨.head _, d.point_mem_nodes 0⟩
      · obtain ⟨es, hes, he⟩ := List.mem_flatten.1 he
        obtain ⟨i, hi, hok⟩ := (Outcome.mem_of_mapM hedges).1 hes
        obtain ⟨r, hr, hmem⟩ := h.edgesAt hd (List.mem_range.1 hi)
        cases hok.symm.trans hr
        exact hmem e he
    indexed := ⟨_, hholds⟩ }

theorem Layout.instr_of_mem_nodes (h : p.Layout) (hd : p.method m = .ok d) {s : StmtId}
    (hs : s ∈ d.nodes) : ∃ i, p.instr s = .ok i := by
  obtain ⟨x, hx, -⟩ := h.stmt_of_mem hd hs
  exact ⟨_, instr_eq_ok.2 ⟨x, hx, rfl⟩⟩

theorem Layout.of_controlFlow (h : p.Layout) {g : ControlFlowGraph}
    (hg : p.controlFlow m = .ok g) : ∃ d, p.method m = .ok d ∧ g.method = m ∧ g.entry = d.entry ∧
      g.exit = d.exit ∧ g.nodes = d.nodes ∧ g.Closed := by
  obtain ⟨d, hd, -⟩ := Outcome.bind_eq_ok.1 hg
  obtain ⟨g', hg', hrest⟩ := h.controlFlow hd
  cases hg.symm.trans hg'
  exact ⟨d, hd, hrest⟩

theorem edgesAt_eq_ok {k : Nat} {es : List Edge} (h : p.edgesAt d k = .ok es) :
    ∃ i, p.instr (d.stmtAt k) = .ok i ∧
      es = (d.ways k i).map fun w => ⟨w.1, d.stmtAt k, d.point w.2⟩ := by
  obtain ⟨i, hi, h⟩ := Outcome.bind_eq_ok.1 h
  obtain ⟨r, hr, h⟩ := Outcome.bind_eq_ok.1 h
  obtain ⟨-, rfl⟩ := MethodDecl.exits_eq_ok_iff.1 hr
  cases h
  exact ⟨i, hi, by simp⟩

/-- Behind the edge out of the entry stand the edges of the statements, in the order of the body. -/
theorem holds_of_controlFlow {g : ControlFlowGraph} (hg : p.controlFlow m = .ok g)
    (hd : p.method m = .ok d) : ∃ F : Nat → List Edge,
      (∀ k < d.length, p.edgesAt d k = .ok (F k)) ∧
      g.Holds (⟨.entry, d.entry, d.point 0⟩ :: (List.range d.length).flatMap F) := by
  obtain ⟨d', hd', h⟩ := Outcome.bind_eq_ok.1 hg
  cases hd.symm.trans hd'
  obtain ⟨edges, hedges, h⟩ := Outcome.bind_eq_ok.1 h
  cases h
  obtain ⟨F, hF, rfl⟩ := Outcome.exists_map_of_mapM hedges
  refine ⟨F, fun k hk => hF k (List.mem_range.2 hk), ?_⟩
  rw [List.flatMap_def]
  exact ControlFlowGraph.holds_addEdges rfl rfl

theorem indexed_of_controlFlow {g : ControlFlowGraph} (hg : p.controlFlow m = .ok g) :
    g.Indexed := by
  obtain ⟨d, hd, -⟩ := Outcome.bind_eq_ok.1 hg
  obtain ⟨F, -, hholds⟩ := holds_of_controlFlow hg hd
  exact ⟨_, hholds⟩

theorem mem_edges {g : ControlFlowGraph} (hg : p.controlFlow m = .ok g)
    (hd : p.method m = .ok d) {e : Edge} : e ∈ g.edges ↔
      e = ⟨.entry, d.entry, d.point 0⟩ ∨
      ∃ i < d.length, ∃ es, p.edgesAt d i = .ok es ∧ e ∈ es := by
  obtain ⟨F, hF, hholds⟩ := holds_of_controlFlow hg hd
  rw [hholds.mem_edges, List.mem_cons, List.mem_flatMap]
  apply or_congr_right
  constructor
  · rintro ⟨k, hk, he⟩
    exact ⟨k, List.mem_range.1 hk, _, hF k (List.mem_range.1 hk), he⟩
  · rintro ⟨k, hk, es, hes, he⟩
    cases hes.symm.trans (hF k hk)
    exact ⟨k, List.mem_range.2 hk, he⟩

theorem source_of_edgesAt {k : Nat} {es : List Edge} (h : p.edgesAt d k = .ok es) :
    ∀ e ∈ es, e.source = d.stmtAt k := by
  obtain ⟨_, -, rfl⟩ := edgesAt_eq_ok h
  exact List.forall_mem_map.2 fun _ _ => rfl

/-- The edges out of a statement are the ways of its instruction, in order. -/
theorem outEdges_stmtAt {g : ControlFlowGraph} (hg : p.controlFlow m = .ok g)
    (hd : p.method m = .ok d) {k : Nat} (hk : k < d.length) {i : Instr}
    (hi : p.instr (d.stmtAt k) = .ok i) :
    g.outEdges (d.stmtAt k) = (d.ways k i).map fun w => ⟨w.1, d.stmtAt k, d.point w.2⟩ := by
  obtain ⟨F, hF, hholds⟩ := holds_of_controlFlow hg hd
  have hentry : d.entry ≠ d.stmtAt k := fun h =>
    d.entry_not_mem_body (MethodDecl.mem_body.2 ⟨k, hk, h⟩)
  obtain ⟨i', hi', hes⟩ := edgesAt_eq_ok (hF k hk)
  cases hi.symm.trans hi'
  rw [hholds.outEdges, List.filter_cons_of_neg (by simpa using hentry),
    filter_flatMap_eq List.nodup_range (List.mem_range.2 hk), List.filter_eq_self.2, hes]
  · exact fun e he => decide_eq_true (source_of_edgesAt (hF k hk) e he)
  · intro j hj hne e he
    rw [source_of_edgesAt (hF j (List.mem_range.1 hj)) e he]
    exact decide_eq_false fun h => hne (MethodDecl.stmtAt_injective h)

theorem succs_stmtAt {g : ControlFlowGraph} (hg : p.controlFlow m = .ok g)
    (hd : p.method m = .ok d) {k : Nat} (hk : k < d.length) {i : Instr}
    (hi : p.instr (d.stmtAt k) = .ok i) :
    g.succs (d.stmtAt k) = (d.ways k i).map fun w => d.point w.2 := by
  rw [ControlFlowGraph.succs, outEdges_stmtAt hg hd hk hi, List.map_map]
  rfl

/-- Control goes from the entry to the first statement, and nowhere else. -/
theorem outEdges_entry {g : ControlFlowGraph} (hg : p.controlFlow m = .ok g)
    (hd : p.method m = .ok d) : g.outEdges d.entry = [⟨.entry, d.entry, d.point 0⟩] := by
  obtain ⟨F, hF, hholds⟩ := holds_of_controlFlow hg hd
  have hbody : ((List.range d.length).flatMap F).filter (·.source = d.entry) = [] := by
    refine List.filter_eq_nil_iff.2 fun e he hsource => d.entry_not_mem_body ?_
    obtain ⟨k, hk, he⟩ := List.mem_flatMap.1 he
    have hk := List.mem_range.1 hk
    rw [← of_decide_eq_true hsource, source_of_edgesAt (hF k hk) e he]
    exact MethodDecl.mem_body.2 ⟨k, hk, rfl⟩
  rw [hholds.outEdges, List.filter_cons_of_pos (by simp), hbody]

theorem outEdges_exit {g : ControlFlowGraph} (hg : p.controlFlow m = .ok g)
    (hd : p.method m = .ok d) : g.outEdges d.exit = [] := by
  refine List.eq_nil_iff_forall_not_mem.2 fun e he => ?_
  obtain ⟨he, hexit⟩ := (indexed_of_controlFlow hg).mem_outEdges.1 he
  rcases (mem_edges hg hd).1 he with rfl | ⟨k, hk, es, hes, he⟩
  · exact d.entry_ne_exit hexit
  · rw [source_of_edgesAt hes e he] at hexit
    exact d.exit_not_mem_body (MethodDecl.mem_body.2 ⟨k, hk, hexit.symm⟩)

theorem Layout.entry_not_mem_succs (h : p.Layout) {g : ControlFlowGraph}
    (hg : p.controlFlow m = .ok g) (s : StmtId) : g.entry ∉ g.succs s := by
  obtain ⟨d, hd, -, hentry, -⟩ := h.of_controlFlow hg
  rw [hentry]
  intro hmem
  obtain ⟨e, he, htarget⟩ := List.mem_map.1 hmem
  obtain ⟨he, -⟩ := (indexed_of_controlFlow hg).mem_outEdges.1 he
  rcases (mem_edges hg hd).1 he with rfl | ⟨k, -, es, hes, he⟩
  · exact d.point_ne_entry 0 htarget
  · obtain ⟨_, -, rfl⟩ := edgesAt_eq_ok hes
    obtain ⟨w, -, rfl⟩ := List.mem_map.1 he
    exact d.point_ne_entry w.2 htarget

/-- Control leaves every statement but the exit. -/
theorem Layout.outEdges_ne_nil (h : p.Layout) {g : ControlFlowGraph}
    (hg : p.controlFlow m = .ok g) (hd : p.method m = .ok d) {s : StmtId} (hs : s ∈ d.nodes)
    (hne : s ≠ d.exit) : g.outEdges s ≠ [] := by
  rcases MethodDecl.mem_nodes.1 hs with rfl | hs | rfl
  · rw [outEdges_entry hg hd]
    exact List.cons_ne_nil _ _
  · obtain ⟨k, hk, rfl⟩ := MethodDecl.mem_body.1 hs
    obtain ⟨i, hi, -⟩ := h.body hd hk
    rw [outEdges_stmtAt hg hd hk (instr_eq_ok.2 ⟨_, hi, rfl⟩)]
    simpa using d.ways_ne_nil k i
  · exact absurd rfl hne

theorem Layout.exists_mem_succs (h : p.Layout) {g : ControlFlowGraph}
    (hg : p.controlFlow m = .ok g) (hd : p.method m = .ok d) {s : StmtId} (hs : s ∈ d.nodes)
    (hne : s ≠ d.exit) : ∃ s', s' ∈ g.succs s := by
  obtain ⟨e, he⟩ := List.exists_mem_of_ne_nil _ (h.outEdges_ne_nil hg hd hs hne)
  exact ⟨e.target, List.mem_map_of_mem he⟩

end Program

end ProgramFlow
