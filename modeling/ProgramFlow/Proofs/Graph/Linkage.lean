import ProgramFlow.Proofs.Graph.Supergraph
/-!
The links of a supergraph are those that its graphs and the given calls ask for. Control that stays
in a method has a link wherever its graph has an edge, and a call is linked with the entry and the
exit of each method given for it.
-/
namespace ProgramFlow

namespace Program

variable {calls : List (StmtId × MethodId)}

theorem mem_foldl_callees {site : StmtId} {m : MethodId} (ms : List MethodId) :
    m ∈ calls.foldl (fun ms (s, m) => if s = site ∧ m ∉ ms then ms ++ [m] else ms) ms ↔
      m ∈ ms ∨ (site, m) ∈ calls := by
  induction calls generalizing ms with
  | nil => simp
  | cons c calls ih =>
    obtain ⟨s, m'⟩ := c
    rw [List.foldl_cons, ih, List.mem_cons, Prod.mk.injEq]
    dsimp only
    split
    · next h =>
      rw [List.mem_append, List.mem_singleton]
      grind
    · next h => grind

theorem mem_givenCallees {site : StmtId} {m : MethodId} :
    m ∈ givenCallees calls site ↔ (site, m) ∈ calls :=
  (mem_foldl_callees []).trans (by simp)

end Program

theorem lookup_map_pair {α β : Type} [BEq α] [LawfulBEq α] (f : α → β) {l : List α} {a : α} :
    (l.map fun x => (x, f x)).lookup a = if l.elem a then some (f a) else none := by
  induction l with
  | nil => rfl
  | cons x l ih =>
    rw [List.map_cons, List.lookup_cons, List.elem_cons, ih]
    cases h : a == x with
    | true =>
      rw [eq_of_beq h]
      rfl
    | false => rfl

/-- The supergraph has the links that the graphs of its methods and the given calls ask for. -/
structure Supergraph.Linked (p : Program) (calls : List (StmtId × MethodId)) (g : Supergraph) :
    Prop where
  graphs : ∀ c ∈ g.graphs, p.controlFlow c.method = .ok c
  links : ∀ c ∈ g.graphs, ∀ n ∈ c.nodes, ∃ ls, p.linksAt calls c n = .ok ls ∧ ∀ l ∈ ls, l ∈ g.links
  found : ∀ c ∈ g.graphs, ∀ d, p.method c.method = .ok d → ∀ n ∈ d.body,
    ∀ callee ∈ Program.givenCallees calls n, callee ∈ g.methods
  callees : ∀ n ∈ g.nodes, ∀ call, p.instr n = .ok (.invoke call) →
    g.calleesOf n = Program.givenCallees calls n

namespace Program

variable {p : Program} {calls : List (StmtId × MethodId)} {entries : List MethodId}

theorem supergraph_linked {g : Supergraph}
    (h : p.supergraph entries calls = .ok g) : g.Linked p calls := by
  have hmade := supergraph_eq_ok h
  have hw := walked_of_reachableMethods hmade.methods
  constructor
  · exact hmade.graphs
  · intro c hc n hn
    obtain ⟨F, hF, hlinks⟩ := hmade.links
    refine ⟨_, hF c hc n hn, fun l hl => hlinks ▸ ?_⟩
    exact List.mem_flatMap.2 ⟨c, hc, List.mem_flatMap.2 ⟨n, hn, hl⟩⟩
  · intro c hc d hd n hn callee hcallee
    have hm : c.method ∈ g.methods := List.mem_map_of_mem hc
    exact (hw.callees _ hm d hd n hn callee hcallee).resolve_right List.not_mem_nil
  · intro n hn call hi
    obtain ⟨test, htest, hcallees⟩ := hmade.callees
    rw [Supergraph.calleesOf, hcallees, lookup_map_pair]
    cases hempty : (givenCallees calls n).isEmpty with
    | true =>
      rw [List.isEmpty_iff.1 hempty]
      split
      · rfl
      · rfl
    | false =>
      have htrue : test n = true := by
        rw [htest n hn _ hi, hempty]
        rfl
      rw [if_pos (List.elem_eq_true_of_mem (List.mem_filter.2 ⟨hn, htrue⟩))]
      rfl

/-- The entry methods are those that were asked for. -/
theorem entryMethods_of_supergraph {g : Supergraph} (h : p.supergraph entries calls = .ok g) :
    g.entryMethods = entries :=
  (supergraph_eq_ok h).entryMethods

end Program

/-- The links that the graphs of a supergraph and the given calls ask for. -/
inductive Supergraph.Asks (p : Program) (calls : List (StmtId × MethodId)) (g : Supergraph) :
    Link → Prop
  | normal {c n s i} (hc : c ∈ g.graphs) (hn : n ∈ c.nodes) (hi : p.instr n = .ok i)
    (hcall : i.isInvoke = false) (hs : s ∈ c.succs n) : Asks p calls g ⟨.normal, n, s⟩
  | callToReturn {c n s call} (hc : c ∈ g.graphs) (hn : n ∈ c.nodes)
    (hi : p.instr n = .ok (.invoke call)) (hs : s ∈ c.succs n) :
    Asks p calls g ⟨.callToReturn, n, s⟩
  | call {c n call callee d} (hc : c ∈ g.graphs) (hn : n ∈ c.nodes)
    (hi : p.instr n = .ok (.invoke call)) (hcallee : (n, callee) ∈ calls)
    (hd : p.method callee = .ok d) : Asks p calls g ⟨.call callee call.args d.params, n, d.entry⟩
  | ret {c n s call callee d} (hc : c ∈ g.graphs) (hn : n ∈ c.nodes)
    (hi : p.instr n = .ok (.invoke call)) (hcallee : (n, callee) ∈ calls)
    (hd : p.method callee = .ok d) (hs : s ∈ c.succs n) :
    Asks p calls g ⟨.ret n callee d.returns call.lhs, d.exit, s⟩

namespace Program

variable {p : Program} {calls : List (StmtId × MethodId)} {entries : List MethodId}
  {g : Supergraph}

theorem asks_of_linksAt {c : ControlFlowGraph} (hc : c ∈ g.graphs) (hindexed : c.Indexed)
    {n : StmtId} (hn : n ∈ c.nodes) {ls : List Link} (h : p.linksAt calls c n = .ok ls) {l : Link} (hl : l ∈ ls) :
    g.Asks p calls l := by
  obtain ⟨i, hi, -⟩ := Outcome.bind_eq_ok.1 h
  rcases mem_linksAt hi h hl with ⟨e, he, rfl⟩ | ⟨call, rfl, f, hf, d, hd, hl⟩
  · obtain ⟨-, rfl⟩ := hindexed.mem_outEdges.1 he
    have htarget : e.target ∈ c.succs e.source := List.mem_map_of_mem he
    cases hinvoke : i.isInvoke with
    | false => exact .normal hc hn hi hinvoke htarget
    | true =>
      obtain ⟨call, hcall⟩ := Option.isSome_iff_exists.1 hinvoke
      obtain rfl := Instr.eq_invoke_of_call? hcall
      exact .callToReturn hc hn hi htarget
  · rcases List.mem_cons.1 hl with rfl | hl
    · exact .call hc hn hi (mem_givenCallees.1 hf) hd
    · obtain ⟨s, hs, rfl⟩ := List.mem_map.1 hl
      exact .ret hc hn hi (mem_givenCallees.1 hf) hd hs

/-- A supergraph has no other links. -/
theorem asks_of_supergraph (h : p.supergraph entries calls = .ok g) {l : Link} (hl : l ∈ g.links) :
    g.Asks p calls l := by
  have hmade := supergraph_eq_ok h
  obtain ⟨F, hF, hlinks⟩ := hmade.links
  rw [hlinks] at hl
  obtain ⟨c, hc, hl⟩ := List.mem_flatMap.1 hl
  obtain ⟨n, hn, hl⟩ := List.mem_flatMap.1 hl
  exact asks_of_linksAt hc (indexed_of_controlFlow (hmade.graphs c hc)) hn (hF c hc n hn) hl

end Program

namespace Supergraph.Linked

variable {p : Program} {calls : List (StmtId × MethodId)} {g : Supergraph} {c : ControlFlowGraph}
  {n s : StmtId} (h : g.Linked p calls) (hc : c ∈ g.graphs) (hn : n ∈ c.nodes)
include h hc hn

theorem normal {i : Instr} (hi : p.instr n = .ok i) (hcall : i.isInvoke = false)
    (hs : s ∈ c.succs n) : ⟨.normal, n, s⟩ ∈ g.links := by
  obtain ⟨e, he, rfl⟩ := List.mem_map.1 hs
  obtain ⟨-, rfl⟩ := (Program.indexed_of_controlFlow (h.graphs c hc)).mem_outEdges.1 he
  obtain ⟨ls, hls, hmem⟩ := h.links c hc _ hn
  have hnone : i.call? = none := by simpa [Instr.isInvoke] using hcall
  apply hmem
  rw [Program.linksAt_of_call?_eq_none hi hnone hls]
  exact List.mem_map_of_mem he

variable {call : Call} (hi : p.instr n = .ok (.invoke call))
include hi

theorem callToReturn (hs : s ∈ c.succs n) : ⟨.callToReturn, n, s⟩ ∈ g.links := by
  obtain ⟨e, he, rfl⟩ := List.mem_map.1 hs
  obtain ⟨-, rfl⟩ := (Program.indexed_of_controlFlow (h.graphs c hc)).mem_outEdges.1 he
  obtain ⟨ls, hls, hmem⟩ := h.links c hc _ hn
  obtain ⟨T, -, rfl⟩ := Program.linksAt_invoke hi hls
  exact hmem _ (List.mem_append_left _ (List.mem_map_of_mem he))

variable {callee : MethodId} {d : MethodDecl} (hcallee : callee ∈ Program.givenCallees calls n)
  (hd : p.method callee = .ok d)
include hcallee hd

/-- A call is linked with the entry of the method, and its exit with where the call returns. -/
theorem through : ⟨.call callee call.args d.params, n, d.entry⟩ ∈ g.links ∧
    ∀ s ∈ c.succs n, ⟨.ret n callee d.returns call.lhs, d.exit, s⟩ ∈ g.links := by
  obtain ⟨ls, hls, hmem⟩ := h.links c hc _ hn
  obtain ⟨T, hT, rfl⟩ := Program.linksAt_invoke hi hls
  obtain ⟨d', hd', hTf⟩ := hT callee hcallee
  cases hd.symm.trans hd'
  have hin : ∀ l ∈ d.callLinks c n call callee, l ∈ g.links := fun l hl =>
    hmem l (List.mem_append_right _ (List.mem_flatMap.2 ⟨callee, hcallee, hTf ▸ hl⟩))
  constructor
  · exact hin _ (.head _)
  · intro s hs
    exact hin _ (.tail _ (List.mem_map_of_mem hs))

end Supergraph.Linked

end ProgramFlow
