import Mathlib.Data.List.Nodup
import ProgramFlow.Graph.Supergraph
import ProgramFlow.Proofs.Graph.ControlFlow
/-!
The supergraph of a built program consists of the graphs of distinct methods, among them those of
the entry methods, and its links join its nodes.
-/
namespace ProgramFlow

namespace Program

variable {p : Program} {calls : List (StmtId × MethodId)} {entries : List MethodId}

/-- What holds between two steps of a walk: what an entry or a found method leads to has been found
or is in the queue. -/
structure Walked (p : Program) (calls : List (StmtId × MethodId)) (entries : List MethodId)
    (w : MethodWalk) : Prop where
  nodup : w.found.Nodup
  declared : ∀ m ∈ w.found, ∃ d, p.method m = .ok d
  entries : ∀ m ∈ entries, m ∈ w.found ∨ m ∈ w.queue
  callees : ∀ m ∈ w.found, ∀ d, p.method m = .ok d → ∀ s ∈ d.body,
    ∀ c ∈ givenCallees calls s, c ∈ w.found ∨ c ∈ w.queue

section

variable {found queue : List MethodId} {m : MethodId}
  (h : p.Walked calls entries ⟨found, m :: queue⟩)
include h

theorem Walked.skip (hm : m ∈ found) : p.Walked calls entries ⟨found, queue⟩ := by
  have hkeep : ∀ {x : MethodId}, x ∈ found ∨ x ∈ m :: queue → x ∈ found ∨ x ∈ queue := by
    intro x hx
    rw [List.mem_cons] at hx
    rcases hx with hx | rfl | hx
    · exact .inl hx
    · exact .inl hm
    · exact .inr hx
  exact ⟨h.nodup, h.declared, fun x hx => hkeep (h.entries x hx),
    fun x hx d hd s hs c hc => hkeep (h.callees x hx d hd s hs c hc)⟩

theorem Walked.visit (hm : m ∉ found) {d : MethodDecl} (hd : p.method m = .ok d) :
    p.Walked calls entries ⟨found ++ [m], queue ++ d.body.flatMap (givenCallees calls)⟩ := by
  have hkeep : ∀ {x : MethodId}, x ∈ found ∨ x ∈ m :: queue →
      x ∈ found ++ [m] ∨ x ∈ queue ++ d.body.flatMap (givenCallees calls) := by
    intro x hx
    rw [List.mem_cons] at hx
    rcases hx with hx | rfl | hx
    · exact .inl (List.mem_append_left _ hx)
    · exact .inl (List.mem_append_right _ (.head _))
    · exact .inr (List.mem_append_left _ hx)
  constructor
  · exact List.nodup_append.2 ⟨h.nodup, by simp, fun x hx y hy hxy =>
      hm (List.mem_singleton.1 hy ▸ hxy ▸ hx)⟩
  · intro x hx
    rcases List.mem_append.1 hx with hx | hx
    · exact h.declared x hx
    · exact ⟨d, List.mem_singleton.1 hx ▸ hd⟩
  · exact fun x hx => hkeep (h.entries x hx)
  · intro x hx d' hd' s hs c hc
    rcases List.mem_append.1 hx with hx | hx
    · exact hkeep (h.callees x hx d' hd' s hs c hc)
    · rw [List.mem_singleton.1 hx] at hd'
      cases hd.symm.trans hd'
      exact .inr (List.mem_append_right _ (List.mem_flatMap.2 ⟨s, hs, hc⟩))

end

theorem Walked.step {w : MethodWalk} (h : p.Walked calls entries w) :
    (p.walkStep calls w).Satisfies (p.Walked calls entries)
      (fun r => ∀ ms, r = .ok ms → p.Walked calls entries ⟨ms, []⟩) := by
  obtain ⟨found, queue⟩ := w
  cases queue with
  | nil =>
    intro ms hms
    cases hms
    exact h
  | cons m queue =>
    simp only [walkStep]
    split
    · next hm => exact h.skip hm
    · next hm =>
      split
      · next e he =>
        intro ms hms
        cases hms
      · next d hd => exact h.visit hm hd

theorem walked_of_reachableMethods {ms : List MethodId}
    (h : p.reachableMethods entries calls = .ok ms) : p.Walked calls entries ⟨ms, []⟩ := by
  have hstart : p.Walked calls entries ⟨[], entries⟩ :=
    ⟨.nil, fun _ hm => (List.not_mem_nil hm).elim, fun _ => .inr,
      fun _ hm => (List.not_mem_nil hm).elim⟩
  have hsat := Progress.iterate_satisfies (fun w hw => Walked.step hw)
    (entries.length + calls.length + 2) _ hstart
  unfold reachableMethods at h
  split at h
  · next r hr =>
    rw [hr] at hsat
    exact hsat ms h
  · cases h

end Program

theorem Instr.eq_invoke_of_call? {i : Instr} {call : Call} (h : i.call? = some call) :
    i = .invoke call := by
  cases i <;> simp_all [call?]

/-- The links of a call to one method: to its entry, and from its exit to where the call returns. -/
def MethodDecl.callLinks (d : MethodDecl) (c : ControlFlowGraph) (n : StmtId) (call : Call)
    (callee : MethodId) : List Link :=
  ⟨.call callee call.args d.params, n, d.entry⟩ ::
    (c.succs n).map fun s => ⟨.ret n callee d.returns call.lhs, d.exit, s⟩

namespace LinkIndex

/-- The positions under a node are those of the links that have it for an end, in order. -/
theorem ofLinks_eq (links : List Link) : ofLinks links = {
    out := (∅ : Buckets ..).pushAll (fun i => (links.get i).source) id (List.finRange links.length)
    into := (∅ : Buckets ..).pushAll (fun i => (links.get i).target) id
      (List.finRange links.length) } := by
  have hfold : ∀ (is : List (Fin links.length)) (x : LinkIndex links.length),
      is.foldl (fun x i => x.add i (links.get i)) x = {
        out := x.out.pushAll (fun i => (links.get i).source) id is
        into := x.into.pushAll (fun i => (links.get i).target) id is } := by
    intro is
    induction is with
    | nil => exact fun _ => rfl
    | cons i is ih => exact fun x => ih (x.add i (links.get i))
  exact hfold _ _

theorem map_get_pushAll (links : List Link) (key : Link → StmtId) (n : StmtId) :
    (((∅ : Buckets StmtId (Fin links.length)).pushAll (fun i => key (links.get i)) id
      (List.finRange links.length)).get n).map links.get = links.filter (key · = n) := by
  rw [Buckets.get_pushAll, Buckets.get_empty, List.nil_append, List.map_id]
  calc ((List.finRange links.length).filter fun i => key (links.get i) = n).map links.get
      = ((List.finRange links.length).map links.get).filter (key · = n) := by
        rw [List.filter_map]
        rfl
    _ = links.filter (key · = n) := by rw [List.map_get_finRange]

end LinkIndex

namespace Supergraph

/-- The links out of a node and into it are those of the list, in its order. -/
structure Indexed (g : Supergraph) : Prop where
  outLinks : ∀ n, g.outLinks n = g.links.filter (·.source = n)
  inLinks : ∀ n, g.inLinks n = g.links.filter (·.target = n)

variable {g : Supergraph} {l : Link} {n : StmtId}

theorem indexed_of_index (h : g.index = .ofLinks g.links) : g.Indexed := by
  rw [LinkIndex.ofLinks_eq] at h
  constructor
  · intro n
    rw [outLinks, h]
    exact LinkIndex.map_get_pushAll g.links (·.source) n
  · intro n
    rw [inLinks, h]
    exact LinkIndex.map_get_pushAll g.links (·.target) n

theorem mem_links_of_mem_outLinks (h : l ∈ g.outLinks n) : l ∈ g.links := by
  obtain ⟨i, -, rfl⟩ := List.mem_map.1 h
  exact List.get_mem ..

theorem mem_links_of_mem_inLinks (h : l ∈ g.inLinks n) : l ∈ g.links := by
  obtain ⟨i, -, rfl⟩ := List.mem_map.1 h
  exact List.get_mem ..

theorem Indexed.mem_outLinks (h : g.Indexed) : l ∈ g.outLinks n ↔ l ∈ g.links ∧ l.source = n := by
  rw [h.outLinks]
  simp

theorem Indexed.mem_inLinks (h : g.Indexed) : l ∈ g.inLinks n ↔ l ∈ g.links ∧ l.target = n := by
  rw [h.inLinks]
  simp

/-- A link is as often under its source as under its target. -/
theorem Indexed.count_outLinks (h : g.Indexed) (l : Link) :
    (g.outLinks l.source).count l = (g.inLinks l.target).count l := by
  rw [h.outLinks, h.inLinks, List.count_filter (by simp), List.count_filter (by simp)]

end Supergraph

/-- What a supergraph is made of: the graphs of the methods that the walk has found, the links of
their nodes in order, and the callees of the call sites that have any. -/
structure Supergraph.Made (p : Program) (entries : List MethodId)
    (calls : List (StmtId × MethodId)) (g : Supergraph) : Prop where
  entryMethods : g.entryMethods = entries
  methods : p.reachableMethods entries calls = .ok g.methods
  graphs : ∀ c ∈ g.graphs, p.controlFlow c.method = .ok c
  links : ∃ F : ControlFlowGraph → StmtId → List Link,
    (∀ c ∈ g.graphs, ∀ n ∈ c.nodes, p.linksAt calls c n = .ok (F c n)) ∧
      g.links = g.graphs.flatMap fun c => c.nodes.flatMap (F c)
  callees : ∃ test : StmtId → Bool,
    (∀ n ∈ g.nodes, ∀ i, p.instr n = .ok i →
      test n = (i.isInvoke && !(Program.givenCallees calls n).isEmpty)) ∧
      g.callees = (g.nodes.filter test).map fun n => (n, Program.givenCallees calls n)
  indexed : g.Indexed

namespace Program

variable {p : Program} {calls : List (StmtId × MethodId)} {entries : List MethodId}
  {c : ControlFlowGraph} {n : StmtId} {i : Instr} {ls : List Link}

theorem linksAt_of_call?_eq_none (hi : p.instr n = .ok i) (hcall : i.call? = none)
    (h : p.linksAt calls c n = .ok ls) :
    ls = (c.outEdges n).map fun e => ⟨.normal, e.source, e.target⟩ := by
  simp only [linksAt, hi, Outcome.ok_bind, hcall, Outcome.pure_eq, Except.ok.injEq] at h
  exact h.symm

theorem linksAt_invoke {call : Call} (hi : p.instr n = .ok (.invoke call))
    (h : p.linksAt calls c n = .ok ls) : ∃ T : MethodId → List Link,
      (∀ f ∈ givenCallees calls n, ∃ d, p.method f = .ok d ∧ T f = d.callLinks c n call f) ∧
      ls = (c.outEdges n).map (fun e => ⟨.callToReturn, e.source, e.target⟩) ++
        (givenCallees calls n).flatMap T := by
  simp only [linksAt, hi, Outcome.ok_bind, Instr.call?] at h
  obtain ⟨through, hthrough, h⟩ := Outcome.bind_eq_ok.1 h
  cases h
  obtain ⟨T, hT, rfl⟩ := Outcome.exists_map_of_mapM hthrough
  refine ⟨T, fun f hf => ?_, by rw [List.flatMap_def]⟩
  obtain ⟨d, hd, hok⟩ := Outcome.bind_eq_ok.1 (hT f hf)
  exact ⟨d, hd, (Except.ok.inj hok).symm⟩

/-- For a node one link is made for each edge out of it, and those of its calls. -/
theorem mem_linksAt (hi : p.instr n = .ok i) (h : p.linksAt calls c n = .ok ls) {l : Link}
    (hl : l ∈ ls) :
    (∃ e ∈ c.outEdges n,
      l = ⟨if i.isInvoke then .callToReturn else .normal, e.source, e.target⟩) ∨
    ∃ call, i = .invoke call ∧ ∃ f ∈ givenCallees calls n, ∃ d, p.method f = .ok d ∧
      l ∈ d.callLinks c n call f := by
  cases hcall : i.call? with
  | none =>
    rw [linksAt_of_call?_eq_none hi hcall h] at hl
    obtain ⟨e, he, rfl⟩ := List.mem_map.1 hl
    exact .inl ⟨e, he, by simp [Instr.isInvoke, hcall]⟩
  | some call =>
    obtain rfl := Instr.eq_invoke_of_call? hcall
    obtain ⟨T, hT, rfl⟩ := linksAt_invoke hi h
    rcases List.mem_append.1 hl with hl | hl
    · obtain ⟨e, he, rfl⟩ := List.mem_map.1 hl
      exact .inl ⟨e, he, rfl⟩
    · obtain ⟨f, hf, hl⟩ := List.mem_flatMap.1 hl
      obtain ⟨d, hd, hTf⟩ := hT f hf
      exact .inr ⟨call, rfl, f, hf, d, hd, hTf ▸ hl⟩

theorem method_of_controlFlow {m : MethodId} (h : p.controlFlow m = .ok c) : c.method = m := by
  obtain ⟨d, -, h⟩ := Outcome.bind_eq_ok.1 h
  obtain ⟨edges, -, h⟩ := Outcome.bind_eq_ok.1 h
  cases h
  rw [ControlFlowGraph.addEdges_eq]

theorem supergraph_eq_ok {g : Supergraph} (h : p.supergraph entries calls = .ok g) :
    g.Made p entries calls := by
  unfold supergraph at h
  split at h
  · cases h
  simp only [Outcome.pure_eq] at h
  obtain ⟨ms, hms, h⟩ := Outcome.bind_eq_ok.1 h
  obtain ⟨graphs, hgraphs, h⟩ := Outcome.bind_eq_ok.1 h
  obtain ⟨links, hlinks, h⟩ := Outcome.bind_eq_ok.1 h
  obtain ⟨sites, hsites, h⟩ := Outcome.bind_eq_ok.1 h
  cases h
  have hmethods : graphs.map (·.method) = ms := by
    refine List.forall₂_eq_eq_eq ▸ List.forall₂_map_left_iff.2 ?_
    exact (Outcome.mapM_eq_ok.1 hgraphs).flip.imp fun _ _ => method_of_controlFlow
  constructor
  · rfl
  · rw [Supergraph.methods, hmethods]
    exact hms
  · intro c hc
    obtain ⟨m, -, hok⟩ := (Outcome.mem_of_mapM hgraphs).1 hc
    rwa [method_of_controlFlow hok]
  · obtain ⟨G, hG, rfl⟩ := Outcome.exists_map_of_mapM hlinks
    have hF : ∀ c ∈ graphs, ∃ F : StmtId → List Link,
        (∀ n ∈ c.nodes, p.linksAt calls c n = .ok (F n)) ∧ G c = c.nodes.map F := fun c hc =>
      Outcome.exists_map_of_mapM (hG c hc)
    choose! F hF hGF using hF
    refine ⟨F, hF, ?_⟩
    rw [List.flatten_flatten, List.map_map, ← List.flatMap_def]
    refine List.flatMap_congr fun c hc => ?_
    rw [Function.comp_apply, hGF c hc, List.flatMap_def]
  · obtain ⟨test, htest, rfl⟩ := Outcome.filterM_eq_ok.1 hsites
    refine ⟨test, fun n hn i hi => ?_, rfl⟩
    have hok := htest n hn
    simp only [isInvoke, hi, Outcome.map_ok, Outcome.ok_bind, Except.ok.injEq] at hok
    exact hok.symm
  · exact Supergraph.indexed_of_index rfl

end Program

theorem Supergraph.Made.mem_graphs_iff {p : Program} {entries : List MethodId}
    {calls : List (StmtId × MethodId)} {g : Supergraph} (h : g.Made p entries calls)
    {c : ControlFlowGraph} : c ∈ g.graphs ↔ c.method ∈ g.methods ∧ p.controlFlow c.method = .ok c := by
  constructor
  · exact fun hc => ⟨List.mem_map_of_mem hc, h.graphs c hc⟩
  · rintro ⟨hm, hok⟩
    obtain ⟨c', hc', heq⟩ := List.mem_map.1 hm
    have hok' := h.graphs c' hc'
    rw [heq] at hok'
    cases hok.symm.trans hok'
    exact hc'

/-- The variables of a link are those of the call and of the method it belongs to. -/
def Link.Fits (p : Program) (l : Link) : Prop :=
  match l.kind with
  | .normal | .callToReturn => True
  | .call callee _ params => ∃ d, p.method callee = .ok d ∧ d.params = params
  | .ret site _ _ result => ∃ call, p.instr site = .ok (.invoke call) ∧ call.lhs = result

/-- The supergraph is made of methods of the program and closed under its links. -/
structure Supergraph.Closed (p : Program) (g : Supergraph) : Prop where
  graphs : ∀ c ∈ g.graphs, ∃ d, p.method c.method = .ok d ∧ c.entry = d.entry ∧ c.nodes = d.nodes
  methods : g.methods.Nodup
  entries : ∀ m ∈ g.entryMethods, m ∈ g.methods
  links : ∀ l ∈ g.links, l.source ∈ g.nodes ∧ l.target ∈ g.nodes ∧ l.Fits p
  indexed : g.Indexed

namespace Program

variable {p : Program} {calls : List (StmtId × MethodId)} {entries : List MethodId}

/-- Where links begin and end: at nodes of the graph, and at those of the methods called. -/
theorem ends_of_linksAt {c : ControlFlowGraph} (hc : c.Closed) {n : StmtId} (hn : n ∈ c.nodes)
    {S : StmtId → Prop} (hS : ∀ s ∈ c.nodes, S s)
    (hcallee : ∀ call, p.instr n = .ok (.invoke call) → ∀ f ∈ givenCallees calls n,
      ∀ d, p.method f = .ok d → ∀ s ∈ d.nodes, S s)
    {ls : List Link} (h : p.linksAt calls c n = .ok ls) :
    ∀ l ∈ ls, S l.source ∧ S l.target ∧ l.Fits p := by
  intro l hl
  obtain ⟨i, hi, -⟩ := Outcome.bind_eq_ok.1 h
  rcases mem_linksAt hi h hl with ⟨e, he, rfl⟩ | ⟨call, rfl, f, hf, d, hd, hl⟩
  · obtain ⟨hs, ht⟩ := hc.edges e (hc.indexed.mem_outEdges.1 he).1
    refine ⟨hS _ hs, hS _ ht, ?_⟩
    cases i.isInvoke <;> trivial
  · have hmem := hcallee call hi f hf d hd
    rcases List.mem_cons.1 hl with rfl | hl
    · exact ⟨hS n hn, hmem _ (MethodDecl.mem_nodes.2 (.inl rfl)), d, hd, rfl⟩
    · obtain ⟨s, hs, rfl⟩ := List.mem_map.1 hl
      exact ⟨hmem _ d.exit_mem_nodes, hS s (hc.succs hs), call, hi, rfl⟩

theorem Layout.supergraph_closed (hp : p.Layout) {g : Supergraph}
    (h : p.supergraph entries calls = .ok g) : g.Closed p := by
  have hmade := supergraph_eq_ok h
  have hw := walked_of_reachableMethods hmade.methods
  have hgraph : ∀ c ∈ g.graphs, ∃ d, p.method c.method = .ok d ∧ c.entry = d.entry ∧
      c.nodes = d.nodes ∧ c.Closed := by
    intro c hc
    obtain ⟨d, hd, -, hentry, -, hnodes, hclosed⟩ := hp.of_controlFlow (hmade.graphs c hc)
    exact ⟨d, hd, hentry, hnodes, hclosed⟩
  have hfound : ∀ m ∈ g.methods, ∀ d, p.method m = .ok d → ∀ s ∈ d.nodes, s ∈ g.nodes := by
    intro m hm d hd s hs
    obtain ⟨c, hc, rfl⟩ := List.mem_map.1 hm
    obtain ⟨d', hd', -, hnodes, -⟩ := hgraph c hc
    cases hd.symm.trans hd'
    exact List.mem_flatMap.2 ⟨c, hc, hnodes ▸ hs⟩
  constructor
  · intro c hc
    obtain ⟨d, hd, hentry, hnodes, -⟩ := hgraph c hc
    exact ⟨d, hd, hentry, hnodes⟩
  · exact hw.nodup
  · intro m hm
    exact (hw.entries m (hmade.entryMethods ▸ hm)).resolve_right List.not_mem_nil
  · intro l hl
    obtain ⟨F, hF, hlinks⟩ := hmade.links
    rw [hlinks] at hl
    obtain ⟨c, hc, hl⟩ := List.mem_flatMap.1 hl
    obtain ⟨n, hn, hl⟩ := List.mem_flatMap.1 hl
    obtain ⟨d, hd, -, hnodes, hclosed⟩ := hgraph c hc
    refine ends_of_linksAt hclosed hn (fun s hs => List.mem_flatMap.2 ⟨c, hc, hs⟩) ?_
      (hF c hc n hn) l hl
    intro call hi f hf
    obtain ⟨d', hd', hbody, -⟩ := hp.contains_of_mem hd (hnodes ▸ hn) hi rfl
    cases hd.symm.trans hd'
    have hm : c.method ∈ g.methods := List.mem_map_of_mem hc
    exact hfound f ((hw.callees _ hm d hd n hbody f hf).resolve_right List.not_mem_nil)
  · exact hmade.indexed

end Program

namespace Supergraph

variable {p : Program} {g : Supergraph}

theorem mem_nodes {n : StmtId} : n ∈ g.nodes ↔ ∃ c ∈ g.graphs, n ∈ c.nodes := List.mem_flatMap

theorem Closed.succs (h : g.Closed p) {m n : StmtId} (hn : n ∈ g.succs m) : n ∈ g.nodes := by
  obtain ⟨l, hl, rfl⟩ := List.mem_map.1 hn
  exact (h.links l (mem_links_of_mem_outLinks hl)).2.1

theorem Closed.instr (h : g.Closed p) (hp : p.Layout) {n : StmtId} (hn : n ∈ g.nodes) :
    ∃ i, p.instr n = .ok i := by
  obtain ⟨c, hc, hn⟩ := mem_nodes.1 hn
  obtain ⟨d, hd, -, hnodes⟩ := h.graphs c hc
  exact hp.instr_of_mem_nodes hd (hnodes ▸ hn)

theorem Closed.graph_unique (h : g.Closed p) (hp : p.Layout) {c c' : ControlFlowGraph}
    (hc : c ∈ g.graphs) (hc' : c' ∈ g.graphs) {n : StmtId} (hn : n ∈ c.nodes) (hn' : n ∈ c'.nodes) :
    c = c' := by
  obtain ⟨d, hd, -, hnodes⟩ := h.graphs c hc
  obtain ⟨d', hd', -, hnodes'⟩ := h.graphs c' hc'
  apply List.inj_on_of_nodup_map h.methods hc hc'
  exact hp.method_unique hd hd' (hnodes ▸ hn) (hnodes' ▸ hn')

theorem Closed.nodup_nodes (h : g.Closed p) (hp : p.Layout) : g.nodes.Nodup := by
  refine List.nodup_flatMap.2 ⟨fun c hc => ?_, ?_⟩
  · obtain ⟨d, -, -, hnodes⟩ := h.graphs c hc
    exact hnodes ▸ d.nodup_nodes
  · refine (List.pairwise_map.1 h.methods).imp_of_mem fun {c c'} hc hc' hne n hn hn' => hne ?_
    rw [h.graph_unique hp hc hc' hn hn']

theorem Closed.graph?_eq_some (h : g.Closed p) {m : MethodId} (hm : m ∈ g.entryMethods) :
    ∃ c, g.graph? m = some c := by
  obtain ⟨c, hc, rfl⟩ := List.mem_map.1 (h.entries m hm)
  rw [← Option.isSome_iff_exists, graph?, List.find?_isSome]
  exact ⟨c, hc, beq_self_eq_true _⟩

theorem of_graph?_eq_some {m : MethodId} {c : ControlFlowGraph} (h : g.graph? m = some c) :
    c ∈ g.graphs ∧ c.method = m :=
  ⟨List.mem_of_find?_eq_some h, by simpa using List.find?_some h⟩

theorem Closed.entry_mem (h : g.Closed p) {c : ControlFlowGraph} (hc : c ∈ g.graphs) :
    c.entry ∈ c.nodes := by
  obtain ⟨d, -, hentry, hnodes⟩ := h.graphs c hc
  rw [hentry, hnodes]
  exact MethodDecl.mem_nodes.2 (.inl rfl)

end Supergraph

end ProgramFlow
