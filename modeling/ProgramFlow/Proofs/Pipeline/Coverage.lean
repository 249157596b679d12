import ProgramFlow.Proofs.Pipeline.Precision
/-!
The stages of a run are over the same methods. The points-to analysis finds them clone by clone
while it propagates objects, the supergraph walks along its calls, and each of them that has a body
is analysed on its own.
-/
namespace ProgramFlow

namespace PointsTo

section

variable {p : Program} {σ : Sensitivity} {r : Result} {g : Supergraph}
variable (hl : p.Layout) (hs : p.Scoped) (h : analyze p σ = .ok r)
  (hgraph : p.supergraph r.entryMethods (r.calls.toList.map fun c => (c.site, c.callee)) = .ok g)
include hl hs h hgraph

/-- A call from a method of the supergraph leads to one. -/
theorem callee_mem_supergraph {i : Invocation} {call : Call} (hi : Derivable p σ (.call i))
    (hsite : p.Contains i.caller i.site (.invoke call)) (hcaller : i.caller ∈ g.methods) :
    i.callee ∈ g.methods := by
  obtain ⟨hbal, hdone⟩ := analyze_ensures hl hs h
  obtain ⟨d, hd, hbody, -⟩ := hsite
  obtain ⟨c, hc, hmethod⟩ := List.mem_map.1 hcaller
  have hcall : (⟨i.site, i.callee⟩ : CallPair) ∈ r.calls :=
    (Result.mem_calls hbal hdone).2 ⟨i, hi, rfl, rfl⟩
  refine (Program.supergraph_linked hgraph).found c hc d (hmethod ▸ hd) _ hbody _ ?_
  exact Program.mem_givenCallees.2 (List.mem_map.2 ⟨_, hcall, rfl⟩)

theorem mem_supergraph_of_derivable {t : Trail} {m : MethodId}
    (hm : Derivable p σ (.reachable t m)) : m ∈ g.methods := by
  have hmem : ∀ {J}, Derivable p σ J → match J with
      | .reachable _ m => m ∈ g.methods
      | .call i => i.callee ∈ g.methods
      | _ => True := by
    intro J hJ
    induction hJ with
    | main hm =>
      refine (hl.supergraph_closed hgraph).entries _ ?_
      rw [Program.entryMethods_of_supergraph hgraph]
      exact main_mem_entryMethods hm h
    | immediate hm hi hJ ih =>
      cases hJ with
      | invoke hk hc =>
        have hcall := Derivable.immediate hm hi (.invoke hk hc)
        exact callee_mem_supergraph hl hs h hgraph hcall hi ih
      | _ => trivial
    | perObject hm hi hb hJ ih =>
      cases hJ with
      | invoke hr ho hol hc =>
        have hcall := Derivable.perObject hm hi hb (.invoke hr ho hol hc)
        exact callee_mem_supergraph hl hs h hgraph hcall hi ih
      | _ => trivial
    | linked _ hJ ih =>
      cases hJ with
      | reachable => exact ih
      | _ => trivial
    | carried => trivial
  exact hmem hm

/-- The walk along the projected calls finds what the analysis reaches in some context. -/
theorem mem_supergraph_iff {m : MethodId} : m ∈ g.methods ↔ m ∈ r.reachableMethods := by
  constructor
  · exact mem_reachableMethods_of_supergraph hl hs h hgraph
  · intro hm
    obtain ⟨hbal, hdone⟩ := analyze_ensures hl hs h
    obtain ⟨t, hm⟩ := (Result.mem_reachableMethods hbal hdone).1 hm
    exact mem_supergraph_of_derivable hl hs h hgraph hm

omit hl hs h in
theorem calleesOf_supergraph {n : StmtId} (hn : n ∈ g.nodes) {call : Call}
    (hi : p.instr n = .ok (.invoke call)) : g.calleesOf n = r.calleesOf n := by
  have hnodup : (r.calls.toList.map fun c => (c.site, c.callee)).Nodup := by
    refine r.calls.nodup.map fun c c' heq => ?_
    obtain ⟨hsite, hcallee⟩ := Prod.mk.inj heq
    cases c
    cases c'
    cases hsite
    cases hcallee
    rfl
  rw [(Program.supergraph_linked hgraph).callees n hn call hi, Program.givenCallees_eq hnodup,
    List.filter_map, List.map_map]
  rfl

end

end PointsTo

namespace Pipeline

open Dataflow (Table)

variable {settings : Settings} {p : Program} {x : Stages} {m : MethodId}

/-- A run reaches the method, and it has a body. -/
def Examined (p : Program) (r : PointsTo.Result) (m : MethodId) : Prop :=
  m ∈ r.reachableMethods ∧ ∃ d, p.method m = .ok d ∧ d.isAbstract = false

/-- What a session has on each method agrees with its points-to analysis and its supergraph. -/
structure Aligned (settings : Settings) (p : Program) (s : Session Published)
    (r : PointsTo.Result) (g : Supergraph) : Prop where
  pointsTo : s.get? Published.pointsTo? .pointsTo = some r
  supergraph : s.get? Published.supergraph? .supergraph = some g
  methods : ∀ m, m ∈ g.methods ↔ m ∈ r.reachableMethods
  /-- Nothing is published twice. -/
  nodup : s.published.Nodup
  keys : ∀ k m, k.method? = some m →
    (k ∈ s.published ↔ Examined p r m ∧ (k = .deadCode m → settings.deadCode = true))
  results : ∀ m, Examined p r m → ∃ c constants live,
    s.get? Published.cfg? (.cfg m) = some c ∧ p.controlFlow m = .ok c ∧
    s.get? Published.constants? (.constants m) = some constants ∧
    s.get? Published.liveness? (.liveness m) = some live ∧
    (settings.deadCode = true → ∃ report, s.get? Published.deadCode? (.deadCode m) = some report)
  callees : ∀ n ∈ g.nodes, ∀ call, p.instr n = .ok (.invoke call) →
    g.calleesOf n = r.calleesOf n
  interConstants : .interConstants ∈ s.published ↔ settings.inter.enabled = true
  /-- There are facts for every node of every control-flow graph. -/
  facts : settings.inter.enabled = true → ∃ t,
    s.get? Published.constants? .interConstants = some t ∧
    ∀ m c, s.get? Published.cfg? (.cfg m) = some c → ∀ n ∈ c.nodes,
      (t.arriving.find? n).isSome ∧ (t.leaving.find? n).isSome

theorem mem_published_keyed {r : MethodResults} {k : AnalysisId} : k ∈ r.keyed.map Prod.fst ↔
    k.method? = some r.graph.method ∧ (k = .deadCode r.graph.method → r.report.isSome = true) := by
  cases hr : r.report <;> cases k <;> simp [MethodResults.keyed, AnalysisId.method?, hr]

namespace Stages

/-- The results under the keys of a method are those of its own analysis. -/
theorem mem_keyed_iff {k : AnalysisId} {v : Published} (hk : k.method? = some m) :
    (k, v) ∈ x.keyed ↔ ∃ r ∈ x.methods, (k, v) ∈ r.keyed := by
  rw [keyed, List.mem_append, List.mem_cons, List.mem_flatMap, List.mem_cons]
  constructor
  · rintro ((heq | hr) | heq | hcalls)
    · cases heq
      cases hk
    · exact hr
    · cases heq
      cases hk
    · obtain ⟨_, -, heq⟩ := List.mem_map.1 hcalls
      cases heq
      cases hk
  · exact fun hr => .inl (.inr hr)

theorem mem_published_iff {k : AnalysisId} (hk : k.method? = some m) :
    k ∈ x.session.published ↔ ∃ r ∈ x.methods, k ∈ r.keyed.map Prod.fst := by
  simp only [session, Session.published, List.mem_map, Prod.exists, exists_and_right,
    exists_eq_right, mem_keyed_iff hk]
  grind

section

variable (h : x.Succeed settings p)
include h

/-- What constant propagation through calls used and found, if it is enabled. -/
theorem Succeed.exists_calls (henabled : settings.inter.enabled = true) : ∃ a t,
    x.calls = some (a, t) ∧
    Interprocedural.aliasesFor p x.graph settings.inter.aliasAware (some x.pointsTo) = .ok a ∧
    (Interprocedural.constantPropagation p a).solve x.graph = .ok t := by
  have hcalls := h.calls
  rw [if_pos henabled] at hcalls
  obtain ⟨⟨a, t⟩, hfound, hcalls⟩ := Outcome.map_eq_ok.1 hcalls
  obtain ⟨_, ha, hfound⟩ := Outcome.bind_eq_ok.1 hfound
  obtain ⟨_, ht, hfound⟩ := Outcome.bind_eq_ok.1 hfound
  cases hfound
  exact ⟨a, t, hcalls.symm, ha, ht⟩

theorem Succeed.mem_published_interConstants :
    .interConstants ∈ x.session.published ↔ settings.inter.enabled = true := by
  have hkey : .interConstants ∈ x.session.published ↔ x.calls.isSome = true := by
    have hmethods : .interConstants ∉ (x.methods.flatMap MethodResults.keyed).map Prod.fst := by
      intro hk
      obtain ⟨m, hm⟩ := exists_method?_of_mem hk
      cases hm
    have hkeys : x.session.published =
        .pointsTo :: (x.methods.flatMap MethodResults.keyed).map Prod.fst ++
          .supergraph :: x.calls.toList.map fun _ => .interConstants := by
      simp [session, Session.published, keyed, Function.comp_def]
    rw [hkeys]
    cases x.calls <;> simp [hmethods]
  rw [hkey]
  constructor
  · intro hcalls
    by_contra hdisabled
    have hnone := h.calls
    rw [if_neg hdisabled] at hnone
    rw [← Except.ok.inj hnone] at hcalls
    cases hcalls
  · intro henabled
    obtain ⟨a, t, hcalls, -⟩ := h.exists_calls henabled
    rw [hcalls]
    rfl

variable (hl : p.Layout)
include hl

/-- The methods with results are those that are examined. -/
theorem Succeed.exists_results_iff : (∃ r ∈ x.methods, r.graph.method = m) ↔
    Examined p x.pointsTo m := by
  constructor
  · rintro ⟨r, hr, rfl⟩
    obtain ⟨hm, hanalyze⟩ := (h.mem_methods hl).1 hr
    exact ⟨hm, (solves_of_analyzeMethod hanalyze).body⟩
  · rintro ⟨hm, d, hd, hconcrete⟩
    obtain ⟨f, hf, -⟩ := Outcome.filterMapM_eq_ok.1 h.methods
    cases hr : f m with
    | none =>
      have habstract := isAbstract_of_analyzeMethod hd (hr ▸ hf m hm)
      cases hconcrete.symm.trans habstract
    | some r =>
      have hanalyze := hr ▸ hf m hm
      obtain rfl := method_of_analyzeMethod hl hanalyze
      exact ⟨r, (h.mem_methods hl).2 ⟨hm, hanalyze⟩, rfl⟩

theorem Succeed.solves {r : MethodResults} (hr : r ∈ x.methods) :
    r.Solves settings p r.graph.method :=
  solves_of_analyzeMethod ((h.mem_methods hl).1 hr).2

theorem Succeed.mem_published_iff {k : AnalysisId} (hk : k.method? = some m) :
    k ∈ x.session.published ↔
      Examined p x.pointsTo m ∧ (k = .deadCode m → settings.deadCode = true) := by
  rw [Stages.mem_published_iff hk, ← h.exists_results_iff hl]
  constructor
  · rintro ⟨r, hr, hkeyed⟩
    obtain ⟨hmethod, hdead⟩ := mem_published_keyed.1 hkeyed
    cases hk.symm.trans hmethod
    exact ⟨⟨r, hr, rfl⟩, fun heq => (h.solves hl hr).report ▸ hdead heq⟩
  · rintro ⟨⟨r, hr, rfl⟩, hdead⟩
    refine ⟨r, hr, mem_published_keyed.2 ⟨hk, fun heq => ?_⟩⟩
    rw [(h.solves hl hr).report, hdead heq]

theorem Succeed.get?_of_mem {α : Type} {view : Published → Option α} {k : AnalysisId}
    {v : Published} {a : α} {r : MethodResults} (hr : r ∈ x.methods) (hv : (k, v) ∈ r.keyed)
    (ha : view v = some a) : x.session.get? view k = some a :=
  (h.get?_iff hl).2 ⟨v, (mem_keyed_iff (method?_of_mem_keyed hv)).2 ⟨r, hr, hv⟩, ha⟩

theorem Succeed.graph_of_get? {c : ControlFlowGraph}
    (hc : x.session.get? Published.cfg? (.cfg m) = some c) :
    ∃ r ∈ x.methods, r.graph = c := by
  obtain ⟨v, hv, hview⟩ := (h.get?_iff hl).1 hc
  obtain ⟨r, hr, hv⟩ := (mem_keyed_iff (m := m) rfl).1 hv
  refine ⟨r, hr, ?_⟩
  simp only [MethodResults.keyed, List.mem_append, List.mem_map, List.mem_cons, Prod.mk.injEq,
    reduceCtorEq, false_and, and_false, exists_false, List.not_mem_nil, or_false, false_or] at hv
  obtain ⟨-, rfl⟩ := hv
  exact Option.some.inj hview

/-- Every node of the supergraph has a fact of constant propagation through calls. -/
theorem Succeed.exists_covers (hs : p.Scoped) (henabled : settings.inter.enabled = true) :
    ∃ t, x.session.get? Published.constants? .interConstants = some t ∧
      t.Covers x.graph.nodes := by
  obtain ⟨a, t, hcalls, ha, ht⟩ := h.exists_calls henabled
  have hsolves := Interprocedural.solves_of_solve_eq_ok hl hs.declared
    (hl.supergraph_closed h.graph) (fun _ => Interprocedural.fits_of_aliasesFor ha) ht
  refine ⟨t, ?_, hsolves.covers⟩
  rw [h.get?_interConstants hl, hcalls]
  rfl

end

/-- What stages that succeed publish is aligned. -/
theorem Succeed.aligned (hl : p.Layout) (hs : p.Scoped) (h : x.Succeed settings p) :
    Aligned settings p x.session x.pointsTo x.graph := by
  have hmethods : ∀ m, m ∈ x.graph.methods ↔ m ∈ x.pointsTo.reachableMethods := fun m =>
    PointsTo.mem_supergraph_iff hl hs h.pointsTo h.graph
  refine {
    pointsTo := (h.get?_iff hl).2 ⟨.pointsTo x.pointsTo, .head _, rfl⟩
    supergraph := h.get?_supergraph hl
    methods := hmethods
    nodup := h.nodup_keyed hl
    keys := fun k m hk => h.mem_published_iff hl hk
    results := fun m hm => ?_
    callees := fun n hn call hi => PointsTo.calleesOf_supergraph h.graph hn hi
    interConstants := h.mem_published_interConstants
    facts := fun henabled => ?_ }
  · obtain ⟨r, hr, rfl⟩ := (h.exists_results_iff hl).2 hm
    have hsolves := h.solves hl hr
    have hget := fun {α : Type} (view : Published → Option α) {k v a} (hv : (k, v) ∈ r.keyed)
      (ha : view v = some a) => h.get?_of_mem hl hr hv ha
    refine ⟨r.graph, r.constants, r.live, hget _ (v := .cfg r.graph) ?_ rfl, hsolves.graph,
      hget _ (v := .constants r.constants) ?_ rfl, hget _ (v := .liveness r.live) ?_ rfl,
      fun henabled => ?_⟩
    · simp [MethodResults.keyed]
    · simp [MethodResults.keyed]
    · simp [MethodResults.keyed]
    · obtain ⟨report, hreport⟩ := Option.isSome_iff_exists.1 (hsolves.report.trans henabled)
      exact ⟨report, hget _ (v := .deadCode report) (by simp [MethodResults.keyed, hreport]) rfl⟩
  · obtain ⟨t, ht, hcovers⟩ := h.exists_covers hl hs henabled
    refine ⟨t, ht, fun m c hc n hn => ?_⟩
    obtain ⟨r, hr, rfl⟩ := h.graph_of_get? hl hc
    -- the supergraph has the same graph for the method
    obtain ⟨c, hc', hmethod⟩ := List.mem_map.1 ((hmethods _).2 ((h.mem_methods hl).1 hr).1)
    have hgraph := (Program.supergraph_linked h.graph).graphs c hc'
    rw [hmethod, (h.solves hl hr).graph] at hgraph
    cases hgraph
    have hmem : n ∈ x.graph.nodes := Supergraph.mem_nodes.2 ⟨_, hc', hn⟩
    exact ⟨(hcovers n).1.2 hmem, (hcovers n).2.2 hmem⟩

end Stages

/-- A run that succeeds covers the same methods in all its stages. -/
theorem aligned_of_run (hb : p.Built) (hs : p.Scoped) {session : Session Published}
    {summary : Summary} (h : run settings p = .ok (session, summary)) :
    ∃ r g, Aligned settings p session r g := by
  obtain ⟨x, hx, rfl⟩ := exists_stages hb.layout h
  exact ⟨_, _, hx.aligned hb.layout hs⟩

/-- The main method of the sample and the method that it calls are analysed, the odd one is not. -/
theorem aligned_of_run_sample : ∃ session summary r g,
    run (.ofPreset .balanced) Program.sample = .ok (session, summary) ∧
    Aligned (.ofPreset .balanced) Program.sample session r g ∧
    .cfg ⟨0⟩ ∈ session.published ∧ .cfg ⟨1⟩ ∉ session.published ∧
    .cfg ⟨2⟩ ∈ session.published := by
  have hrun : (fun x => decide (.cfg ⟨0⟩ ∈ x.1.published ∧ .cfg ⟨1⟩ ∉ x.1.published ∧
      .cfg ⟨2⟩ ∈ x.1.published)) <$> run (.ofPreset .balanced) Program.sample = .ok true := by
    decide +kernel
  obtain ⟨⟨session, summary⟩, hrun, hkeys⟩ := Outcome.map_eq_ok.1 hrun
  obtain ⟨r, g, haligned⟩ := aligned_of_run Program.sample_built Program.sample_scoped hrun
  exact ⟨session, summary, r, g, hrun, haligned, of_decide_eq_true hkeys⟩

end Pipeline

end ProgramFlow
