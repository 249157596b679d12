import Mathlib.Data.List.Nodup
import ProgramFlow.Pipeline.Run
import ProgramFlow.Proofs.Graph.ControlFlow
/-!
The stages of a whole-program run. Their results are published under distinct keys, so a run
succeeds when its stages do, and its session has each result under its key.
-/
namespace ProgramFlow

namespace Session

variable {ρ α : Type} {s t : Session ρ} {rs : List (AnalysisId × ρ)}

theorem publish_eq_ok {id : AnalysisId} {r : ρ} (h : id ∉ s.published) :
    s.publish id r = .ok ⟨s.results ++ [(id, r)]⟩ := by
  rw [publish, contains, decide_eq_false h]
  rfl

theorem publishAll_eq_ok (h : (s.published ++ rs.map Prod.fst).Nodup) :
    s.publishAll rs = .ok ⟨s.results ++ rs⟩ := by
  induction rs generalizing s with
  | nil => simp [publishAll]
  | cons r rs ih =>
    obtain ⟨id, r⟩ := r
    have hfresh : id ∉ s.published := by
      intro hr
      exact (List.nodup_append.1 h).2.2 id hr id (.head _) rfl
    have hrest : ((⟨s.results ++ [(id, r)]⟩ : Session ρ).published ++ rs.map Prod.fst).Nodup := by
      simpa [published] using h
    rw [publishAll, List.foldlM_cons]
    refine Outcome.bind_eq_ok.2 ⟨_, publish_eq_ok hfresh, (ih hrest).trans ?_⟩
    simp

/-- A key that has been given is not given again. -/
theorem nodup_publish {id : AnalysisId} {r : ρ} (hs : s.published.Nodup)
    (h : s.publish id r = .ok t) : t.published.Nodup := by
  unfold publish at h
  split at h
  · cases h
  · next hfresh =>
    cases h
    have hfresh : id ∉ s.published := by simpa [contains] using hfresh
    simpa [published] using hs.concat hfresh

theorem nodup_publishAll (hs : s.published.Nodup) (h : s.publishAll rs = .ok t) :
    t.published.Nodup :=
  Outcome.foldlM_keeps (Q := fun s => s.published.Nodup) (fun _ hs _ _ _ h => nodup_publish hs h)
    hs h

theorem get?_eq_some_iff (h : s.published.Nodup) {view : ρ → Option α} {id : AnalysisId} {a : α} :
    s.get? view id = some a ↔ ∃ r, (id, r) ∈ s.results ∧ view r = some a := by
  have hlookup : ∀ r, s.results.lookup id = some r ↔ (id, r) ∈ s.results := by
    intro r
    rw [List.lookup_eq_some_iff]
    constructor
    · rintro ⟨l, l', hl, -⟩
      rw [hl]
      exact List.mem_append_right _ (.head _)
    · intro hr
      obtain ⟨l, l', hl⟩ := List.append_of_mem hr
      refine ⟨l, l', hl, fun x hx => ?_⟩
      rw [published, hl, List.map_append, List.nodup_append] at h
      simpa using (h.2.2 x.1 (List.mem_map_of_mem hx) id (.head _)).symm
  simp only [get?, Option.bind_eq_some_iff, hlookup]

end Session

/-- The method whose analysis has the key. -/
def AnalysisId.method? : AnalysisId → Option MethodId
  | cfg m | constants m | liveness m | deadCode m => some m
  | pointsTo | supergraph | interConstants => none

namespace Pipeline

open Dataflow (Table)

/-- The results of the stages of a run. -/
structure Stages where
  pointsTo : PointsTo.Result
  methods : List MethodResults
  graph : Supergraph
  /-- What constant propagation through calls used and found, if it was asked for. -/
  calls : Option (Option Interprocedural.Aliases × Table Fact)

namespace Stages

/-- What is published, in order. -/
def keyed (x : Stages) : List (AnalysisId × Published) :=
  (.pointsTo, .pointsTo x.pointsTo) :: x.methods.flatMap MethodResults.keyed ++
    (.supergraph, .supergraph x.graph) ::
      x.calls.toList.map fun (_, facts) => (.interConstants, .constants facts)

def session (x : Stages) : Session Published := ⟨x.keyed⟩

def summary (settings : Settings) (x : Stages) : Summary where
  preset := settings.preset
  context := x.pointsTo.sensitivity.text
  reachableMethods := x.pointsTo.reachableMethods.toList.length
  callEdges := x.pointsTo.statistics.callEdges
  methodsAnalyzed := x.methods.length
  deadStatements := (x.methods.map MethodResults.deadCount).foldl (· + ·) 0
  nodes := x.graph.nodes.length
  links := x.graph.links.length
  interConstants := settings.inter.enabled
  aliasAware := x.calls.any (·.1.isSome)

/-- The stages succeed with these results. -/
structure Succeed (settings : Settings) (p : Program) (x : Stages) : Prop where
  valid : settings.validate = .ok ()
  pointsTo : PointsTo.analyze p settings.sensitivity = .ok x.pointsTo
  methods : x.pointsTo.reachableMethods.toList.filterMapM (analyzeMethod settings p) =
    .ok x.methods
  graph : p.supergraph x.pointsTo.entryMethods
    (x.pointsTo.calls.toList.map fun c => (c.site, c.callee)) = .ok x.graph
  calls : (if settings.inter.enabled then
      some <$> analyzeCalls settings p (some x.pointsTo) x.graph else pure none) = .ok x.calls

end Stages

variable {settings settings' : Settings} {p : Program} {x : Stages}

/-- The results are those of the method's own problems. -/
structure MethodResults.Solves (settings : Settings) (p : Program) (m : MethodId)
    (r : MethodResults) : Prop where
  body : ∃ d, p.method m = .ok d ∧ d.isAbstract = false
  graph : p.controlFlow m = .ok r.graph
  constants : p.constantPropagation.solve r.graph settings.schedule = .ok r.constants
  live : p.liveVariables.solve r.graph settings.schedule = .ok r.live
  report : r.report.isSome = settings.deadCode

theorem solves_of_analyzeMethod {m : MethodId} {r : MethodResults}
    (h : analyzeMethod settings p m = .ok (some r)) : r.Solves settings p m := by
  obtain ⟨d, hd, h⟩ := Outcome.bind_eq_ok.1 h
  split at h
  · cases h
  next hconcrete =>
  obtain ⟨c, hc, h⟩ := Outcome.bind_eq_ok.1 h
  obtain ⟨constants, hconstants, h⟩ := Outcome.bind_eq_ok.1 h
  obtain ⟨live, hlive, h⟩ := Outcome.bind_eq_ok.1 h
  have hbody : ∃ d, p.method m = .ok d ∧ d.isAbstract = false := ⟨d, hd, by simpa using hconcrete⟩
  dsimp only at h
  split at h
  · next henabled =>
    obtain ⟨_, hreport, h⟩ := Outcome.bind_eq_ok.1 h
    obtain ⟨report, -, rfl⟩ := Outcome.map_eq_ok.1 hreport
    cases h
    exact ⟨hbody, hc, hconstants, hlive, henabled.symm⟩
  · next hdisabled =>
    cases h
    exact ⟨hbody, hc, hconstants, hlive, by simpa using hdisabled⟩

theorem method_of_analyzeMethod (hl : p.Layout) {m : MethodId} {r : MethodResults}
    (h : analyzeMethod settings p m = .ok (some r)) : r.graph.method = m := by
  obtain ⟨-, -, hm, -⟩ := hl.of_controlFlow (solves_of_analyzeMethod h).graph
  exact hm

/-- Only an abstract method has no results. -/
theorem isAbstract_of_analyzeMethod {m : MethodId} {d : MethodDecl} (hd : p.method m = .ok d)
    (h : analyzeMethod settings p m = .ok none) : d.isAbstract = true := by
  obtain ⟨d', hd', h⟩ := Outcome.bind_eq_ok.1 h
  cases hd.symm.trans hd'
  split at h
  · next habstract => exact habstract
  obtain ⟨c, -, h⟩ := Outcome.bind_eq_ok.1 h
  obtain ⟨constants, -, h⟩ := Outcome.bind_eq_ok.1 h
  obtain ⟨live, -, h⟩ := Outcome.bind_eq_ok.1 h
  dsimp only at h
  split at h
  · obtain ⟨report, -, h⟩ := Outcome.bind_eq_ok.1 h
    cases h
  · cases h

theorem analyzeMethod_congr (hschedule : settings.schedule = settings'.schedule)
    (hdead : settings.deadCode = settings'.deadCode) :
    analyzeMethod settings p = analyzeMethod settings' p := by
  funext m
  simp only [analyzeMethod, hschedule, hdead]

theorem method?_of_mem_keyed {r : MethodResults} {k : AnalysisId} {v : Published}
    (h : (k, v) ∈ r.keyed) : k.method? = some r.graph.method := by
  simp only [MethodResults.keyed, List.mem_append, List.mem_map, List.mem_cons, Prod.mk.injEq,
    List.not_mem_nil, or_false] at h
  rcases h with ⟨_, -, rfl, -⟩ | ⟨rfl, -⟩ | ⟨rfl, -⟩ | ⟨rfl, -⟩ <;> rfl

theorem nodup_keyed (r : MethodResults) : (r.keyed.map Prod.fst).Nodup := by
  cases hr : r.report <;> simp [MethodResults.keyed, hr]

theorem exists_method?_of_mem {rs : List MethodResults} {k : AnalysisId}
    (hk : k ∈ (rs.flatMap MethodResults.keyed).map Prod.fst) : ∃ m, k.method? = some m := by
  obtain ⟨⟨k, v⟩, hv, rfl⟩ := List.mem_map.1 hk
  obtain ⟨r, -, hv⟩ := List.mem_flatMap.1 hv
  exact ⟨_, method?_of_mem_keyed hv⟩

/-! ## One stage after the other -/

namespace Progress

/-- Where a run stands after the analysis of more methods. -/
def extend (x : Progress) (rs : List MethodResults) : Progress where
  session := ⟨x.session.results ++ rs.flatMap MethodResults.keyed⟩
  methodsAnalyzed := x.methodsAnalyzed + rs.length
  deadStatements := (rs.map MethodResults.deadCount).foldl (· + ·) x.deadStatements

/-- No key has been given twice, and none belongs to a method that is still to come. -/
structure Ready (x : Progress) (ms : List MethodId) : Prop where
  nodup : x.session.published.Nodup
  fresh : ∀ k ∈ x.session.published, ∀ m ∈ ms, k.method? ≠ some m

variable {y : Progress} {m : MethodId} {ms : List MethodId} {r : MethodResults}

theorem published_extend (rs : List MethodResults) : (y.extend rs).session.published =
    y.session.published ++ (rs.flatMap MethodResults.keyed).map Prod.fst := by
  simp only [extend, Session.published, List.map_append]

theorem extend_cons (rs : List MethodResults) : (y.extend [r]).extend rs = y.extend (r :: rs) := by
  simp only [extend, List.flatMap_cons, List.flatMap_nil, List.append_nil, List.append_assoc,
    List.length_cons, List.length_nil, List.map_cons, List.map_nil, List.foldl_cons,
    List.foldl_nil, Nat.zero_add, Nat.add_assoc, Nat.add_comm 1]

theorem Ready.nodup_append (h : y.Ready (r.graph.method :: ms)) :
    (y.session.published ++ r.keyed.map Prod.fst).Nodup := by
  refine List.nodup_append.2 ⟨h.nodup, nodup_keyed r, ?_⟩
  intro k hk k' hk' heq
  subst heq
  obtain ⟨⟨k, v⟩, hv, rfl⟩ := List.mem_map.1 hk'
  exact h.fresh k hk _ (.head _) (method?_of_mem_keyed hv)

theorem Ready.visit (h : y.Ready (r.graph.method :: ms))
    (hr : analyzeMethod settings p r.graph.method = .ok (some r)) :
    y.visit settings p r.graph.method = .ok (y.extend [r]) := by
  have hpublish := Session.publishAll_eq_ok h.nodup_append
  simp only [Progress.visit, hr, Outcome.ok_bind, hpublish, Outcome.pure_eq]
  simp [extend]

theorem Ready.extend (h : y.Ready (r.graph.method :: ms)) (hm : r.graph.method ∉ ms) :
    (y.extend [r]).Ready ms := by
  have hpublished := published_extend (y := y) [r]
  rw [List.flatMap_cons, List.flatMap_nil, List.append_nil] at hpublished
  constructor
  · rw [hpublished]
    exact h.nodup_append
  · intro k hk m hmem
    rw [hpublished] at hk
    rcases List.mem_append.1 hk with hk | hk
    · exact h.fresh k hk m (.tail _ hmem)
    · obtain ⟨⟨k, v⟩, hv, rfl⟩ := List.mem_map.1 hk
      rw [method?_of_mem_keyed hv]
      intro heq
      cases heq
      exact hm hmem

/-- To publish while the methods are analysed comes to the same as to publish afterwards: the
publications never fail. -/
theorem foldlM_visit (hl : p.Layout) (hms : ms.Nodup) (h : y.Ready ms) :
    ms.foldlM (visit settings p) y = y.extend <$> ms.filterMapM (analyzeMethod settings p) := by
  induction ms generalizing y with
  | nil => simp [extend]
  | cons m ms ih =>
    rw [List.nodup_cons] at hms
    rw [List.foldlM_cons, List.filterMapM_cons]
    cases hr : analyzeMethod settings p m with
    | error e => simp only [visit, hr, Outcome.error_bind, Outcome.map_error]
    | ok o =>
      cases o with
      | none =>
        have hvisit : y.visit settings p m = .ok y := by
          simp only [visit, hr, Outcome.ok_bind, Outcome.pure_eq]
        rw [hvisit, Outcome.ok_bind, Outcome.ok_bind]
        exact ih hms.2 ⟨h.nodup, fun k hk m hm => h.fresh k hk m (.tail _ hm)⟩
      | some r =>
        obtain rfl := method_of_analyzeMethod hl hr
        rw [h.visit hr, Outcome.ok_bind, Outcome.ok_bind, ih hms.2 (h.extend hms.1)]
        cases ms.filterMapM (analyzeMethod settings p) with
        | error e => rfl
        | ok rs => exact congrArg _ (extend_cons rs)

theorem nodup_visit {z : Progress} (hy : y.session.published.Nodup)
    (h : y.visit settings p m = .ok z) : z.session.published.Nodup := by
  obtain ⟨o, -, h⟩ := Outcome.bind_eq_ok.1 h
  cases o with
  | none =>
    cases h
    exact hy
  | some r =>
    obtain ⟨session, hsession, h⟩ := Outcome.bind_eq_ok.1 h
    cases h
    exact Session.nodup_publishAll hy hsession

theorem nodup_foldlM_visit {z : Progress} (hy : y.session.published.Nodup)
    (h : ms.foldlM (visit settings p) y = .ok z) : z.session.published.Nodup :=
  Outcome.foldlM_keeps (Q := fun x => x.session.published.Nodup)
    (fun _ hx _ _ _ hvisit => nodup_visit hx hvisit) hy h

theorem ready_initial (r : PointsTo.Result) (ms : List MethodId) :
    Ready { session := ⟨[(.pointsTo, .pointsTo r)]⟩ } ms where
  nodup := List.nodup_singleton _
  fresh k hk m _ := by
    cases List.mem_singleton.1 hk
    nofun

/-- The stages that are about no method have keys of their own. -/
theorem not_mem_published_extend (y : Progress) (rs : List MethodResults) {k : AnalysisId}
    (hk : k ∉ y.session.published) (hnone : k.method? = none) :
    k ∉ (y.extend rs).session.published := by
  rw [published_extend]
  intro hmem
  rcases List.mem_append.1 hmem with hmem | hmem
  · exact hk hmem
  · obtain ⟨m, hm⟩ := exists_method?_of_mem hmem
    cases hnone.symm.trans hm

end Progress

/-- The last stage gets the result that the first has published. -/
theorem publishCalls_eq {session : Session Published} {r : PointsTo.Result} {g : Supergraph}
    (hfirst : session.get? Published.pointsTo? .pointsTo = some r)
    (hfresh : .interConstants ∉ session.published) :
    publishCalls settings p g session = (fun calls => (⟨session.results ++ calls.toList.map
        fun (_, facts) => (.interConstants, .constants facts)⟩, calls.any (·.1.isSome))) <$>
      (if settings.inter.enabled then some <$> analyzeCalls settings p (some r) g
        else pure none) := by
  unfold publishCalls
  split
  · rw [hfirst]
    cases analyzeCalls settings p (some r) g with
    | error e => rfl
    | ok found =>
      simp only [Outcome.ok_bind, Session.publish_eq_ok hfresh]
      rfl
  · simp

theorem nodup_publishCalls {session : Session Published} {g : Supergraph}
    {last : Session Published × Bool} (hs : session.published.Nodup)
    (h : publishCalls settings p g session = .ok last) : last.1.published.Nodup := by
  unfold publishCalls at h
  split at h
  · obtain ⟨found, -, h⟩ := Outcome.bind_eq_ok.1 h
    obtain ⟨session', hpublish, h⟩ := Outcome.bind_eq_ok.1 h
    cases h
    exact Session.nodup_publish hs hpublish
  · cases h
    exact hs

/-- A run comes to its stages: what they publish on the way is in the session. -/
theorem run_eq_stages (hl : p.Layout) (hv : settings.validate = .ok ()) {r : PointsTo.Result}
    (hr : PointsTo.analyze p settings.sensitivity = .ok r) : run settings p = do
    let methods ← r.reachableMethods.toList.filterMapM (analyzeMethod settings p)
    let graph ← p.supergraph r.entryMethods (r.calls.toList.map fun c => (c.site, c.callee))
    let calls ← (if settings.inter.enabled then some <$> analyzeCalls settings p (some r) graph
      else pure none)
    let x : Stages := ⟨r, methods, graph, calls⟩
    return (x.session, x.summary settings) := by
  have hvalid : settings.validate.mapError AnalysisError.config = .ok () := by
    rw [hv]
    rfl
  have hfirst : (Session.empty : Session Published).publish .pointsTo (.pointsTo r) =
    .ok ⟨[(.pointsTo, .pointsTo r)]⟩ := rfl
  simp only [run, hvalid, hr, hfirst, Outcome.ok_bind,
    Progress.foldlM_visit hl r.reachableMethods.nodup (Progress.ready_initial r _)]
  cases r.reachableMethods.toList.filterMapM (analyzeMethod settings p) with
  | error e => rfl
  | ok methods =>
    simp only [Outcome.map_ok, Outcome.ok_bind]
    cases p.supergraph r.entryMethods (r.calls.toList.map fun c => (c.site, c.callee)) with
    | error e => rfl
    | ok graph =>
      have hfresh := fun k => Progress.not_mem_published_extend (k := k)
        { session := ⟨[(.pointsTo, .pointsTo r)]⟩ } methods
      have hgraph := hfresh .supergraph (by simp [Session.published]) rfl
      have hcalls := hfresh .interConstants (by simp [Session.published]) rfl
      simp only [Outcome.ok_bind, Session.publish_eq_ok hgraph]
      rw [publishCalls_eq (r := r) rfl (by simpa [Session.published] using hcalls)]
      cases (if settings.inter.enabled then some <$> analyzeCalls settings p (some r) graph
        else pure none : Outcome (Option (Option Interprocedural.Aliases × Table Fact))) with
      | error e => rfl
      | ok calls =>
        simp [Progress.extend, Stages.session, Stages.keyed, Stages.summary]

/-- Stages that succeed make a run that succeeds. -/
theorem Stages.Succeed.run_eq_ok (hl : p.Layout) (h : x.Succeed settings p) :
    run settings p = .ok (x.session, x.summary settings) := by
  rw [run_eq_stages hl h.valid h.pointsTo, h.methods, Outcome.ok_bind, h.graph, Outcome.ok_bind,
    h.calls]
  rfl

/-- A run publishes under distinct keys. -/
theorem nodup_of_run {session : Session Published} {summary : Summary}
    (h : run settings p = .ok (session, summary)) : session.published.Nodup := by
  obtain ⟨_, -, h⟩ := Outcome.bind_eq_ok.1 h
  obtain ⟨pta, -, h⟩ := Outcome.bind_eq_ok.1 h
  obtain ⟨first, hfirst, h⟩ := Outcome.bind_eq_ok.1 h
  obtain ⟨progress, hmethods, h⟩ := Outcome.bind_eq_ok.1 h
  obtain ⟨graph, -, h⟩ := Outcome.bind_eq_ok.1 h
  obtain ⟨third, hthird, h⟩ := Outcome.bind_eq_ok.1 h
  obtain ⟨last, hlast, h⟩ := Outcome.bind_eq_ok.1 h
  cases h
  have hnodup := Session.nodup_publish (s := .empty) List.nodup_nil hfirst
  have hnodup := Progress.nodup_foldlM_visit hnodup hmethods
  exact nodup_publishCalls (Session.nodup_publish hnodup hthird) hlast

theorem valid_of_run {session : Session Published} {summary : Summary}
    (h : run settings p = .ok (session, summary)) : settings.validate = .ok () := by
  cases hv : settings.validate with
  | ok => rfl
  | error e =>
    simp only [run, hv] at h
    cases h

theorem deadCode_mem_keyed {r : MethodResults} {m : MethodId} {report : DeadCodeReport} :
    (∃ v, (.deadCode m, v) ∈ r.keyed ∧ v.deadCode? = some report) ↔
      r.graph.method = m ∧ r.report = some report := by
  constructor
  · rintro ⟨v, hv, hreport⟩
    simp only [MethodResults.keyed, List.mem_append, List.mem_map, List.mem_cons, Prod.mk.injEq,
      reduceCtorEq, false_and, List.not_mem_nil, or_false] at hv
    obtain ⟨report', hmem, hm, rfl⟩ := hv
    cases hm
    cases hreport
    exact ⟨rfl, Option.mem_toList.1 hmem⟩
  · rintro ⟨rfl, hreport⟩
    exact ⟨.deadCode report, by simp [MethodResults.keyed, hreport], rfl⟩

namespace Stages

section

variable (hl : p.Layout) (h : x.Succeed settings p)
include hl h

theorem Succeed.mem_methods {r : MethodResults} :
    r ∈ x.methods ↔ r.graph.method ∈ x.pointsTo.reachableMethods ∧
      analyzeMethod settings p r.graph.method = .ok (some r) := by
  obtain ⟨f, hf, hmethods⟩ := Outcome.filterMapM_eq_ok.1 h.methods
  rw [hmethods, List.mem_filterMap]
  constructor
  · rintro ⟨m, hm, hr⟩
    have hanalyze := hr ▸ hf m hm
    cases method_of_analyzeMethod hl hanalyze
    exact ⟨hm, hanalyze⟩
  · rintro ⟨hm, hanalyze⟩
    exact ⟨_, hm, Except.ok.inj ((hf _ hm).symm.trans hanalyze)⟩

/-- No two results have the same key. -/
theorem Succeed.nodup_keyed : (x.keyed.map Prod.fst).Nodup :=
  nodup_of_run (h.run_eq_ok hl)

theorem Succeed.get?_iff {α : Type} {view : Published → Option α} {k : AnalysisId} {a : α} :
    x.session.get? view k = some a ↔ ∃ v, (k, v) ∈ x.keyed ∧ view v = some a :=
  Session.get?_eq_some_iff (h.nodup_keyed hl)

theorem Succeed.get?_supergraph :
    x.session.get? Published.supergraph? .supergraph = some x.graph :=
  (h.get?_iff hl).2 ⟨.supergraph x.graph, by simp [keyed], rfl⟩

/-- The report on a method is that of its own analysis. -/
theorem Succeed.get?_deadCode {m : MethodId} {report : DeadCodeReport} :
    x.session.get? Published.deadCode? (.deadCode m) = some report ↔
      m ∈ x.pointsTo.reachableMethods ∧
        ∃ r, analyzeMethod settings p m = .ok (some r) ∧ r.report = some report := by
  rw [h.get?_iff hl]
  simp only [keyed, List.mem_append, List.mem_cons, Prod.mk.injEq, reduceCtorEq, false_and,
    List.mem_map, and_false, exists_false, or_false, false_or, List.mem_flatMap]
  constructor
  · rintro ⟨v, ⟨r, hr, hv⟩, hview⟩
    obtain ⟨rfl, hreport⟩ := deadCode_mem_keyed.1 ⟨v, hv, hview⟩
    obtain ⟨hm, hanalyze⟩ := (h.mem_methods hl).1 hr
    exact ⟨hm, r, hanalyze, hreport⟩
  · rintro ⟨hm, r, hanalyze, hreport⟩
    obtain rfl := method_of_analyzeMethod hl hanalyze
    obtain ⟨v, hv, hview⟩ := deadCode_mem_keyed.2 ⟨rfl, hreport⟩
    exact ⟨v, ⟨r, (h.mem_methods hl).2 ⟨hm, hanalyze⟩, hv⟩, hview⟩

theorem Succeed.get?_interConstants :
    x.session.get? Published.constants? .interConstants = x.calls.map Prod.snd := by
  apply Option.ext
  intro t
  rw [h.get?_iff hl, Option.map_eq_some_iff]
  simp only [keyed, List.mem_append, List.mem_cons, Prod.mk.injEq, reduceCtorEq, false_and,
    List.mem_map, Option.mem_toList, true_and, false_or]
  constructor
  · rintro ⟨v, hv | ⟨found, hfound, rfl⟩, ht⟩
    · obtain ⟨r, -, hv⟩ := List.mem_flatMap.1 hv
      cases method?_of_mem_keyed hv
    · cases ht
      exact ⟨found, hfound, rfl⟩
  · rintro ⟨found, hfound, rfl⟩
    exact ⟨.constants found.2, .inr ⟨found, hfound, rfl⟩, rfl⟩

end

end Stages

/-- A run that succeeds publishes what its stages found. -/
theorem exists_stages (hl : p.Layout) {session : Session Published} {summary : Summary}
    (h : run settings p = .ok (session, summary)) :
    ∃ x : Stages, x.Succeed settings p ∧ session = x.session := by
  have hv := valid_of_run h
  have hpta : ∃ r, PointsTo.analyze p settings.sensitivity = .ok r := by
    obtain ⟨_, -, h⟩ := Outcome.bind_eq_ok.1 h
    obtain ⟨r, hr, -⟩ := Outcome.bind_eq_ok.1 h
    exact ⟨r, hr⟩
  obtain ⟨r, hr⟩ := hpta
  rw [run_eq_stages hl hv hr] at h
  obtain ⟨methods, hmethods, h⟩ := Outcome.bind_eq_ok.1 h
  obtain ⟨graph, hgraph, h⟩ := Outcome.bind_eq_ok.1 h
  obtain ⟨calls, hcalls, h⟩ := Outcome.bind_eq_ok.1 h
  cases h
  exact ⟨⟨r, methods, graph, calls⟩, ⟨hv, hr, hmethods, hgraph, hcalls⟩, rfl⟩

end Pipeline

end ProgramFlow
