import ProgramFlow.Proofs.Graph.Construction
/-!
Calls and returns are paired. In the supergraph of a built program each call of a method given for it
has one link to the entry and one back from the exit, whatever else is called from where and however
often it is given; every edge of an included method has one link, and there are no others.
-/
namespace ProgramFlow

namespace LinkKind

/-- Control stays in the method. -/
def isLocal : LinkKind → Bool
  | normal | callToReturn => true
  | _ => false

def isCall (callee : MethodId) : LinkKind → Bool
  | call f _ _ => f = callee
  | _ => false

def isReturn (site : StmtId) (callee : MethodId) : LinkKind → Bool
  | ret n f _ _ => n = site ∧ f = callee
  | _ => false

end LinkKind

/-- The node that the link belongs to: the call site of a return, else the source. -/
def Link.origin (l : Link) : StmtId :=
  match l.kind with
  | .ret site .. => site
  | _ => l.source

namespace Link

theorem origin_of_isLocal {l : Link} (h : l.kind.isLocal = true) : l.origin = l.source := by
  obtain ⟨kind, source, target⟩ := l
  cases kind <;> first | rfl | cases h

theorem origin_of_isCall {l : Link} {callee : MethodId} (h : l.kind.isCall callee = true) :
    l.origin = l.source := by
  obtain ⟨kind, source, target⟩ := l
  cases kind <;> first | rfl | cases h

theorem origin_of_isReturn {l : Link} {n : StmtId} {callee : MethodId}
    (h : l.kind.isReturn n callee = true) : l.origin = n := by
  obtain ⟨kind, source, target⟩ := l
  cases kind with
  | ret site => exact (of_decide_eq_true h).1
  | _ => cases h

end Link

theorem MethodDecl.isLocal_of_mem_callLinks {d : MethodDecl} {c : ControlFlowGraph} {n : StmtId}
    {call : Call} {callee : MethodId} {l : Link} (h : l ∈ d.callLinks c n call callee) :
    l.kind.isLocal = false := by
  rcases List.mem_cons.1 h with rfl | h
  · rfl
  · obtain ⟨s, -, rfl⟩ := List.mem_map.1 h
    rfl

namespace Program

variable {p : Program} {entries : List MethodId} {calls : List (StmtId × MethodId)}

/-- The methods that the entries reach through calls at statements of reached methods. -/
inductive Reaches (p : Program) (entries : List MethodId) (calls : List (StmtId × MethodId)) :
    MethodId → Prop
  | entry {m} (h : m ∈ entries) : Reaches p entries calls m
  | call {m d s callee} (h : Reaches p entries calls m) (hd : p.method m = .ok d) (hs : s ∈ d.body)
    (hc : (s, callee) ∈ calls) : Reaches p entries calls callee

theorem origin_of_linksAt {c : ControlFlowGraph} (hc : c.Indexed) {n : StmtId} {ls : List Link}
    (h : p.linksAt calls c n = .ok ls) : ∀ l ∈ ls, l.origin = n := by
  intro l hl
  obtain ⟨i, hi, -⟩ := Outcome.bind_eq_ok.1 h
  rcases mem_linksAt hi h hl with ⟨e, he, rfl⟩ | ⟨call, rfl, f, -, d, -, hl⟩
  · obtain ⟨-, rfl⟩ := hc.mem_outEdges.1 he
    cases i.isInvoke <;> rfl
  · rcases List.mem_cons.1 hl with rfl | hl
    · rfl
    · obtain ⟨s, -, rfl⟩ := List.mem_map.1 hl
      rfl

end Program

namespace Supergraph

variable {p : Program} {entries : List MethodId} {calls : List (StmtId × MethodId)}
  {g : Supergraph}

theorem Made.mem_methods_iff (h : g.Made p entries calls) {m : MethodId} :
    m ∈ g.methods ↔ p.Reaches entries calls m := by
  constructor
  · intro hm
    refine Program.forall_of_reachableMethods (fun _ => .entry) ?_ h.methods m hm
    exact fun m hm d hd s hs callee hc => .call hm hd hs hc
  · intro hm
    have hw := Program.walked_of_reachableMethods h.methods
    induction hm with
    | entry hm => exact (hw.entries _ hm).resolve_right List.not_mem_nil
    | call _ hd hs hc ih =>
      exact (hw.callees _ ih _ hd _ hs _ (Program.mem_givenCallees.2 hc)).resolve_right
        List.not_mem_nil

section

variable (h : g.Made p entries calls) (hclosed : g.Closed p) (hl : p.Layout)
  {c : ControlFlowGraph} (hc : c ∈ g.graphs) {n : StmtId} (hn : n ∈ c.nodes)
include h hclosed hl hc hn

/-- The links that belong to a node are those made for it. -/
theorem Made.exists_links : ∃ ls, p.linksAt calls c n = .ok ls ∧
    ∀ P : Link → Bool, (∀ l, P l = true → l.origin = n) → g.links.filter P = ls.filter P := by
  obtain ⟨F, hF, hlinks⟩ := h.links
  refine ⟨F c n, hF c hc n hn, fun P hP => ?_⟩
  have horigin : ∀ c' ∈ g.graphs, ∀ n' ∈ c'.nodes, ∀ l ∈ F c' n', P l = true → n' = n :=
    fun c' hc' n' hn' l hlink hPl => (Program.origin_of_linksAt
      (Program.indexed_of_controlFlow (h.graphs c' hc')) (hF c' hc' n' hn') l hlink).symm.trans
        (hP l hPl)
  have hgraphs : g.graphs.Nodup := hclosed.methods.of_map
  have hnodes : c.nodes.Nodup := (List.nodup_flatMap.1 (hclosed.nodup_nodes hl)).1 c hc
  rw [hlinks, filter_flatMap_eq hgraphs hc, filter_flatMap_eq hnodes hn]
  · intro n' hn' hne l hlink
    exact Bool.eq_false_iff.2 fun hPl => hne (horigin c hc n' hn' l hlink hPl)
  · intro c' hc' hne l hlink
    obtain ⟨n', hn', hlink⟩ := List.mem_flatMap.1 hlink
    refine Bool.eq_false_iff.2 fun hPl => hne ?_
    exact hclosed.graph_unique hl hc' hc hn' (horigin c' hc' n' hn' l hlink hPl ▸ hn)

/-- Every edge out of a node has one link. -/
theorem Made.filter_isLocal {i : Instr} (hi : p.instr n = .ok i) :
    g.links.filter (fun l => l.kind.isLocal && l.source = n) =
      (c.outEdges n).map fun e =>
        ⟨if i.isInvoke then .callToReturn else .normal, e.source, e.target⟩ := by
  obtain ⟨ls, hls, hfilter⟩ := h.exists_links hclosed hl hc hn
  have hsource : ∀ e ∈ c.outEdges n, e.source = n := fun e he =>
    ((Program.indexed_of_controlFlow (h.graphs c hc)).mem_outEdges.1 he).2
  have hall : ∀ kind, LinkKind.isLocal kind = true → ∀ l ∈ (c.outEdges n).map fun e =>
      (⟨kind, e.source, e.target⟩ : Link), (l.kind.isLocal && decide (l.source = n)) = true :=
    fun kind hkind => List.forall_mem_map.2 fun e he => by simp [hkind, hsource e he]
  rw [hfilter]
  · cases hcall : i.call? with
    | none =>
      rw [Program.linksAt_of_call?_eq_none hi hcall hls, List.filter_eq_self.2 (hall _ rfl)]
      simp [Instr.isInvoke, hcall]
    | some call =>
      obtain rfl := Instr.eq_invoke_of_call? hcall
      obtain ⟨T, hT, rfl⟩ := Program.linksAt_invoke hi hls
      have hcalls : ((Program.givenCallees calls n).flatMap T).filter
          (fun l => l.kind.isLocal && l.source = n) = [] := by
        refine List.filter_eq_nil_iff.2 fun l hlink => ?_
        obtain ⟨f, hf, hlink⟩ := List.mem_flatMap.1 hlink
        obtain ⟨d, -, hTf⟩ := hT f hf
        simp [MethodDecl.isLocal_of_mem_callLinks (hTf ▸ hlink)]
      rw [List.filter_append, List.filter_eq_self.2 (hall _ rfl), hcalls, List.append_nil]
      rfl
  · intro l hP
    obtain ⟨hkind, hn⟩ := Bool.and_eq_true_iff.1 hP
    rw [Link.origin_of_isLocal hkind, of_decide_eq_true hn]

variable {call : Call} (hi : p.instr n = .ok (.invoke call)) {callee : MethodId} {d : MethodDecl}
  (hcallee : (n, callee) ∈ calls) (hd : p.method callee = .ok d)
include hi hcallee hd

/-- What is asked of the links of one call of one method is answered by those made for it. -/
theorem Made.filter_callLinks {P : Link → Bool} (hP : ∀ l, P l = true → l.origin = n)
    (hpast : ∀ e : Edge, P ⟨.callToReturn, e.source, e.target⟩ = false)
    (hother : ∀ (f : MethodId) (d' : MethodDecl), f ≠ callee →
      ∀ l ∈ d'.callLinks c n call f, P l = false) :
    g.links.filter P = (d.callLinks c n call callee).filter P := by
  obtain ⟨ls, hls, hfilter⟩ := h.exists_links hclosed hl hc hn
  obtain ⟨T, hT, rfl⟩ := Program.linksAt_invoke hi hls
  have hgiven := Program.mem_givenCallees.2 hcallee
  obtain ⟨d', hd', hTf⟩ := hT callee hgiven
  cases hd.symm.trans hd'
  have hnone : ((c.outEdges n).map fun e => (⟨.callToReturn, e.source, e.target⟩ : Link)).filter P =
      [] :=
    List.filter_eq_nil_iff.2 (List.forall_mem_map.2 fun e _ => by simp [hpast e])
  rw [hfilter P hP, List.filter_append, hnone, List.nil_append,
    filter_flatMap_eq (Program.nodup_givenCallees n) hgiven, hTf]
  intro f hf hne
  obtain ⟨d', -, hTf⟩ := hT f hf
  rw [hTf]
  exact hother f d' hne

/-- One link enters the method. -/
theorem Made.filter_isCall : g.links.filter (fun l => l.kind.isCall callee && l.source = n) =
    [⟨.call callee call.args d.params, n, d.entry⟩] := by
  rw [h.filter_callLinks hclosed hl hc hn hi hcallee hd]
  · simp [MethodDecl.callLinks, LinkKind.isCall]
  · intro l hP
    obtain ⟨hkind, hn⟩ := Bool.and_eq_true_iff.1 hP
    rw [Link.origin_of_isCall hkind, of_decide_eq_true hn]
  · exact fun _ => rfl
  · intro f d' hne l hlink
    rcases List.mem_cons.1 hlink with rfl | hlink
    · simp [LinkKind.isCall, hne]
    · obtain ⟨s, -, rfl⟩ := List.mem_map.1 hlink
      rfl

/-- For each place where the call returns one link comes back. -/
theorem Made.filter_isReturn : g.links.filter (·.kind.isReturn n callee) =
    (c.succs n).map fun s => ⟨.ret n callee d.returns call.lhs, d.exit, s⟩ := by
  rw [h.filter_callLinks hclosed hl hc hn hi hcallee hd]
  · simp [MethodDecl.callLinks, LinkKind.isReturn]
  · exact fun l => Link.origin_of_isReturn
  · exact fun _ => rfl
  · intro f d' hne l hlink
    rcases List.mem_cons.1 hlink with rfl | hlink
    · rfl
    · obtain ⟨s, -, rfl⟩ := List.mem_map.1 hlink
      simp [LinkKind.isReturn, hne]

end

/-- The supergraph joins the graphs of the reached methods and nothing else: each edge has one link,
and each call of a method one to its entry and one from its exit back to where the call returns. -/
structure Paired (p : Program) (entries : List MethodId) (calls : List (StmtId × MethodId))
    (g : Supergraph) : Prop where
  entryMethods : g.entryMethods = entries
  nodup_methods : g.methods.Nodup
  mem_methods : ∀ m, m ∈ g.methods ↔ p.Reaches entries calls m
  graphs : ∀ c ∈ g.graphs, p.controlFlow c.method = .ok c
  nodup_nodes : g.nodes.Nodup
  mem_nodes : ∀ n, n ∈ g.nodes ↔ ∃ c ∈ g.graphs, n ∈ c.nodes
  edges : ∀ c ∈ g.graphs, ∀ n ∈ c.nodes, ∃ i, p.instr n = .ok i ∧
    g.links.filter (fun l => l.kind.isLocal && l.source = n) =
      (c.outEdges n).map fun e =>
        ⟨if i.isInvoke then .callToReturn else .normal, e.source, e.target⟩
  pairs : ∀ c ∈ g.graphs, ∀ n ∈ c.nodes, ∀ call, p.instr n = .ok (.invoke call) →
    ∀ callee, (n, callee) ∈ calls → ∃ d s, p.method callee = .ok d ∧ c.succs n = [s] ∧
      g.links.filter (fun l => l.kind.isCall callee && l.source = n) =
        [⟨.call callee call.args d.params, n, d.entry⟩] ∧
      g.links.filter (·.kind.isReturn n callee) = [⟨.ret n callee d.returns call.lhs, d.exit, s⟩]
  asks : ∀ l ∈ g.links, g.Asks p calls l
  endpoints : ∀ l ∈ g.links, l.source ∈ g.nodes ∧ l.target ∈ g.nodes
  count : ∀ l, (g.outLinks l.source).count l = (g.inLinks l.target).count l

end Supergraph

namespace Program

variable {p : Program} {entries : List MethodId} {calls : List (StmtId × MethodId)}

/-- A call returns to one place. -/
theorem Layout.exists_succs_eq (hl : p.Layout) {c : ControlFlowGraph} {m : MethodId}
    (hc : p.controlFlow m = .ok c) {n : StmtId} (hn : n ∈ c.nodes) {call : Call}
    (hi : p.instr n = .ok (.invoke call)) : ∃ s, c.succs n = [s] := by
  obtain ⟨d, hd, -, -, -, hnodes, -⟩ := hl.of_controlFlow hc
  obtain ⟨d', hd', hbody, -⟩ := hl.contains_of_mem hd (hnodes ▸ hn) hi rfl
  cases hd.symm.trans hd'
  obtain ⟨k, hk, rfl⟩ := MethodDecl.mem_body.1 hbody
  exact ⟨_, succs_stmtAt hc hd hk hi⟩

/-- For declared entries and callees there is a supergraph, and in it calls and returns are paired. -/
theorem Built.supergraph_paired (hp : p.Built) (hne : entries ≠ [])
    (hentries : ∀ m ∈ entries, ∃ d, p.method m = .ok d)
    (hcalls : ∀ c ∈ calls, ∃ d, p.method c.2 = .ok d) :
    ∃ g, p.supergraph entries calls = .ok g ∧ g.Paired p entries calls := by
  have hl := hp.layout
  obtain ⟨g, hg⟩ := exists_supergraph hl hentries hcalls hne
  have hmade := supergraph_eq_ok hg
  have hclosed := hl.supergraph_closed hg
  refine ⟨g, hg, ?_⟩
  exact {
    entryMethods := hmade.entryMethods
    nodup_methods := hclosed.methods
    mem_methods := fun m => hmade.mem_methods_iff
    graphs := hmade.graphs
    nodup_nodes := hclosed.nodup_nodes hl
    mem_nodes := fun n => Supergraph.mem_nodes
    edges := by
      intro c hc n hn
      obtain ⟨i, hi⟩ := hclosed.instr hl (Supergraph.mem_nodes.2 ⟨c, hc, hn⟩)
      exact ⟨i, hi, hmade.filter_isLocal hclosed hl hc hn hi⟩
    pairs := by
      intro c hc n hn call hi callee hcallee
      obtain ⟨d, hd⟩ := hcalls _ hcallee
      obtain ⟨s, hs⟩ := hl.exists_succs_eq (hmade.graphs c hc) hn hi
      refine ⟨d, s, hd, hs, hmade.filter_isCall hclosed hl hc hn hi hcallee hd, ?_⟩
      rw [hmade.filter_isReturn hclosed hl hc hn hi hcallee hd, hs]
      rfl
    asks := fun l hlink => asks_of_supergraph hg hlink
    endpoints := fun l hlink => ⟨(hclosed.links l hlink).1, (hclosed.links l hlink).2.1⟩
    count := hclosed.indexed.count_outLinks }

/-- The main method calls another method, given twice, and itself, and its branch counts as a call of
a third one. -/
theorem Built.supergraph_paired_sample : ∃ g,
    sample.supergraph [⟨2⟩] [(⟨12⟩, ⟨0⟩), (⟨12⟩, ⟨2⟩), (⟨12⟩, ⟨0⟩), (⟨13⟩, ⟨1⟩)] = .ok g ∧
    g.Paired sample [⟨2⟩] [(⟨12⟩, ⟨0⟩), (⟨12⟩, ⟨2⟩), (⟨12⟩, ⟨0⟩), (⟨13⟩, ⟨1⟩)] ∧
    g.methods = [⟨2⟩, ⟨0⟩, ⟨1⟩] := by
  have hentries : ∀ m ∈ [(⟨2⟩ : MethodId)], ∃ d, sample.method m = .ok d :=
    List.forall_mem_singleton.2 ⟨_, rfl⟩
  have hcalls : ∀ c ∈ [((⟨12⟩ : StmtId), (⟨0⟩ : MethodId)), (⟨12⟩, ⟨2⟩), (⟨12⟩, ⟨0⟩), (⟨13⟩, ⟨1⟩)],
      ∃ d, sample.method c.2 = .ok d := by
    simpa using ⟨⟨_, rfl⟩, ⟨_, rfl⟩, ⟨_, rfl⟩, _, rfl⟩
  obtain ⟨g, hg, hpaired⟩ := sample_built.supergraph_paired (by decide) hentries hcalls
  have hmethods : Supergraph.methods <$>
      sample.supergraph [⟨2⟩] [(⟨12⟩, ⟨0⟩), (⟨12⟩, ⟨2⟩), (⟨12⟩, ⟨0⟩), (⟨13⟩, ⟨1⟩)] =
        .ok [⟨2⟩, ⟨0⟩, ⟨1⟩] := by
    decide +kernel
  rw [hg] at hmethods
  exact ⟨g, hg, hpaired, Except.ok.inj hmethods⟩

end Program

end ProgramFlow
