import ProgramFlow.Proofs.DeadCode.Detection
import ProgramFlow.Proofs.Pipeline.Precision
import ProgramFlow.Proofs.Program.Abstract
/-!
A run fails for announced reasons only: its settings are invalid, the program has no main method, or
a reachable statement assigns a reference or an integer in an unknown way. What comes after the
analyses of the methods always succeeds, since these have looked at the same statements.
-/
namespace ProgramFlow

namespace Program

/-- Constant propagation has an answer for every statement of the method. -/
def Understood (p : Program) (m : MethodId) : Prop :=
  ∀ d, p.method m = .ok d → ∀ s ∈ d.body, ∀ tag, ¬ p.Unsupported s tag

/-- Any method may be made the main method. -/
theorem Built.setMain {p : Program} (h : p.Built) (m : MethodId) :
    ({ p with main := some m } : Program).Built := by
  obtain ⟨b, hb, hp⟩ := h
  obtain ⟨_, hmethods, hp⟩ := Outcome.bind_eq_ok.1 hp
  obtain ⟨_, hanchors, hp⟩ := Outcome.bind_eq_ok.1 hp
  cases hp
  refine ⟨b.setMain m, hb.setMain m, ?_⟩
  exact Outcome.bind_eq_ok.2 ⟨_, hmethods, Outcome.bind_eq_ok.2 ⟨_, hanchors, rfl⟩⟩

theorem exists_first_unsupported {p : Program} {m : MethodId} (h : ¬ p.Understood m) :
    ∃ d l s l' tag, p.method m = .ok d ∧ d.body = l ++ s :: l' ∧
      (∀ r ∈ l, ∀ tag, ¬ p.Unsupported r tag) ∧ p.Unsupported s tag := by
  simp only [Understood, not_forall, not_not] at h
  obtain ⟨d, hd, s, hs, tag, hun⟩ := h
  obtain ⟨l, s, l', hbody, hnot, hl⟩ := exists_first (P := fun s => ∀ tag, ¬ p.Unsupported s tag)
    ⟨s, hs, fun hall => hall tag hun⟩
  obtain ⟨tag, hun⟩ := not_forall.1 hnot
  exact ⟨d, l, s, l', tag, hd, hbody, hl, not_not.1 hun⟩

end Program

namespace PointsTo

section

variable (p : Program) (σ : Sensitivity)

/-- In some context the method is reachable. -/
def Reached (m : MethodId) : Prop := ∃ t, Derivable p σ (.reachable t m)

/-- A reachable statement assigns a reference in an unknown way. -/
def UnknownReference (s : StmtId) (tag : String) : Prop :=
  ∃ m v reads x, Reached p σ m ∧ p.Contains m s (.unknown tag (some v) reads) ∧
    p.var v = .ok x ∧ x.ty.isReference = true

/-- The statement is the first that assigns an integer in an unknown way in the lowest reachable
method that has such statements. -/
def FirstUnsupported (s : StmtId) (tag : String) : Prop :=
  ∃ m d l l', Reached p σ m ∧ (∀ m', Reached p σ m' → m'.index < m.index → p.Understood m') ∧
    p.method m = .ok d ∧ d.body = l ++ s :: l' ∧ (∀ r ∈ l, ∀ tag, ¬ p.Unsupported r tag) ∧
    p.Unsupported s tag

end

variable {p : Program} {σ : Sensitivity} {r : Result}

theorem Supported.not_unknownReference (h : Supported p σ) {s : StmtId} {tag : String} :
    ¬ UnknownReference p σ s tag := by
  rintro ⟨m, v, reads, x, ⟨t, hm⟩, hs, hx, href⟩
  cases href.symm.trans (h hm hs hx)

variable (hl : p.Layout) (hs : p.Scoped)
include hl hs

theorem reached_iff (h : analyze p σ = .ok r) {m : MethodId} :
    Reached p σ m ↔ m ∈ r.reachableMethods := by
  obtain ⟨hbal, hdone⟩ := analyze_ensures hl hs h
  exact (Result.mem_reachableMethods hbal hdone).symm

theorem supported_of_analyze (h : analyze p σ = .ok r) : Supported p σ :=
  supported_of_solve hl hs (analyze_eq_ok_iff.1 h).2.2

/-- An analysis in contexts of a valid depth either succeeds or refuses the program. -/
theorem analyze_cases (hg : p.Grounded) (hvalid : σ.validate = .ok ()) :
    (∃ r, analyze p σ = .ok r) ∨
      ∃ e, analyze p σ = .error e ∧ Refuses p (Derivable p σ) e := by
  have hD : Tame p σ (Derivable p σ) := Derivable.tame hl hs hg
  have hsolve := (solvent_initial hD.toSaturated).solve hl hs.declared hg hD
  obtain ⟨_, s, hrun, -⟩ | ⟨e, s, hrun, he, -⟩ := hsolve
  · obtain ⟨r, hr, -⟩ := exists_analyze_of_solve hvalid hrun
    exact .inl ⟨r, hr⟩
  · refine .inr ⟨e, ?_, he⟩
    simp only [analyze, hvalid, hrun]
    rfl

end PointsTo

namespace Pipeline

open PointsTo (Reached UnknownReference FirstUnsupported)

/-- The announced reasons for a run to fail, each if no earlier one applies. -/
inductive Fails (settings : Settings) (p : Program) : AnalysisError → Prop
  | config {e} (h : settings.validate = .error e) : Fails settings p (.config e)
  | noMain (hv : settings.validate = .ok ()) (hm : p.main = none) :
    Fails settings p (.invalidProgram .noMain)
  | unknownReference {s tag} (hv : settings.validate = .ok ())
    (h : UnknownReference p settings.sensitivity s tag) :
    Fails settings p (.unsupportedConstruct .pointsTo s tag)
  | unknownInteger {s tag} (hv : settings.validate = .ok ())
    (hr : ∀ s tag, ¬ UnknownReference p settings.sensitivity s tag)
    (h : FirstUnsupported p settings.sensitivity s tag) :
    Fails settings p (.unsupportedConstruct .constants s tag)

variable {settings : Settings} {p : Program} {m : MethodId}

section Methods

variable (hb : p.Built) (hv : p.Declared)
include hb hv

theorem exists_analyzeMethod {d : MethodDecl} (hd : p.method m = .ok d) (hm : p.Understood m) :
    ∃ o, analyzeMethod settings p m = .ok o := by
  cases habstract : d.isAbstract with
  | true => exact ⟨none, by simp only [analyzeMethod, hd, Outcome.ok_bind, habstract]; rfl⟩
  | false =>
    obtain ⟨g, hg, ⟨live, hlive, -⟩, hconstants, -⟩ := hb.solve_schedules hv hd
    obtain ⟨constants, hconstants, -⟩ := hconstants (hm d hd)
    obtain ⟨d', hd', rfl, -, -, hnodes, hclosed⟩ := hb.layout.of_controlFlow hg
    cases hd.symm.trans hd'
    obtain ⟨report, hreport⟩ := Program.exists_detectDeadCode
      (e := ⟨g, constants.before .forward, live.after .backward⟩) hclosed
      (fun n hn => hb.layout.instr_of_mem_nodes hd (hnodes ▸ hn)) hd
    refine ⟨some ⟨g, constants, live, if settings.deadCode then some report else none⟩, ?_⟩
    simp only [analyzeMethod, hd, Outcome.ok_bind, habstract, hg, hconstants, hlive]
    cases settings.deadCode with
    | true => simp [hreport]
    | false => rfl

/-- The analysis of a method stops at the first statement that constant propagation does not
support. -/
theorem analyzeMethod_eq_error {d : MethodDecl} (hd : p.method m = .ok d) {l l' : List StmtId}
    {s : StmtId} {tag : String} (hbody : d.body = l ++ s :: l')
    (hl : ∀ r ∈ l, ∀ tag, ¬ p.Unsupported r tag) (hs : p.Unsupported s tag) :
    analyzeMethod settings p m = .error (.unsupportedConstruct .constants s tag) := by
  have hconcrete : d.isAbstract = false := by
    by_contra habstract
    rw [hb.body_eq_nil hd (by simpa using habstract)] at hbody
    cases l <;> cases hbody
  obtain ⟨g, hg, -, -, herror⟩ := hb.solve_schedules hv hd
  simp only [analyzeMethod, hd, Outcome.ok_bind, hconcrete, hg, herror l s l' tag hbody hl hs]
  rfl

theorem understood_of_analyzeMethod {o : Option MethodResults}
    (h : analyzeMethod settings p m = .ok o) : p.Understood m := by
  by_contra hnot
  obtain ⟨d, l, s, l', tag, hd, hbody, hl, hs⟩ := Program.exists_first_unsupported hnot
  cases h.symm.trans (analyzeMethod_eq_error hb hv hd hbody hl hs)

end Methods

/-! ## One stage after the other -/

theorem run_of_validate {e : ConfigError} (h : settings.validate = .error e) :
    run settings p = .error (.config e) := by
  simp only [run, h]
  rfl

theorem run_of_analyze (hv : settings.validate = .ok ()) {e : AnalysisError}
    (h : PointsTo.analyze p settings.sensitivity = .error e) : run settings p = .error e := by
  simp only [run, hv, h]
  rfl

theorem run_of_methods (hl : p.Layout) (hv : settings.validate = .ok ()) {r : PointsTo.Result}
    (hr : PointsTo.analyze p settings.sensitivity = .ok r) {e : AnalysisError}
    (h : r.reachableMethods.toList.filterMapM (analyzeMethod settings p) = .error e) :
    run settings p = .error e := by
  rw [run_eq_stages hl hv hr, h]
  rfl

section Reachable

variable {r : PointsTo.Result} (hb : p.Built) (hs : p.Scoped)
  (hr : PointsTo.analyze p settings.sensitivity = .ok r)
include hb hs hr

theorem exists_analysis (hg : p.Grounded) (hm : m ∈ r.reachableMethods) (h : p.Understood m) :
    ∃ o, analyzeMethod settings p m = .ok o := by
  obtain ⟨t, hreach⟩ := (PointsTo.reached_iff hb.layout hs hr).2 hm
  obtain ⟨d, hd⟩ := hreach.exists_method hg
  exact exists_analyzeMethod hb hs.declared hd h

/-- The methods are analysed from the lowest on, up to the first that is not understood. -/
theorem exists_firstUnsupported (hg : p.Grounded) (hm : m ∈ r.reachableMethods)
    (hnot : ¬ p.Understood m) : ∃ s tag, FirstUnsupported p settings.sensitivity s tag ∧
      r.reachableMethods.toList.filterMapM (analyzeMethod settings p) =
        .error (.unsupportedConstruct .constants s tag) := by
  have hreached := fun m => PointsTo.reached_iff (m := m) hb.layout hs hr
  obtain ⟨ms, m, ms', hms, hnot, hbefore⟩ := exists_first (P := p.Understood)
    ⟨m, SortedSet.mem_toList.2 hm, hnot⟩
  have hmem : ∀ m', m' ∈ r.reachableMethods ↔ m' ∈ ms ∨ m' = m ∨ m' ∈ ms' := by
    intro m'
    rw [← SortedSet.mem_toList, hms, List.mem_append, List.mem_cons]
  obtain ⟨d, l, s, l', tag, hd, hbody, hl, hun⟩ := Program.exists_first_unsupported hnot
  refine ⟨s, tag, ⟨m, d, l, l', (hreached m).2 ((hmem m).2 (.inr (.inl rfl))), ?_, hd, hbody, hl,
    hun⟩, ?_⟩
  · intro m' hm' hlt
    rcases (hmem m').1 ((hreached m').1 hm') with hm' | rfl | hm'
    · exact hbefore m' hm'
    · exact absurd hlt (Nat.lt_irrefl _)
    · have hincreasing := r.reachableMethods.increasing
      rw [hms, List.pairwise_append, List.pairwise_cons] at hincreasing
      have hgt := Nat.compare_eq_lt.1 (hincreasing.2.1.1 m' hm')
      exact absurd hlt (Nat.lt_asymm hgt)
  · rw [hms]
    refine Outcome.filterMapM_eq_error (fun m' hm' => ?_)
      (analyzeMethod_eq_error hb hs.declared hd hbody hl hun)
    exact exists_analysis hb hs hr hg ((hmem m').2 (.inl hm')) (hbefore m' hm')

/-- Once the methods have been analysed, the other stages succeed. -/
theorem exists_later_stages (hg : p.Grounded) (hv : settings.validate = .ok ())
    {methods : List MethodResults}
    (hm : r.reachableMethods.toList.filterMapM (analyzeMethod settings p) = .ok methods) :
    ∃ x : Stages, x.Succeed settings p ∧ x.pointsTo = r ∧ x.methods = methods := by
  have hl := hb.layout
  obtain ⟨g, hgraph⟩ := PointsTo.exists_supergraph_of_analyze hl hs hr hg
  have hclosed := hl.supergraph_closed hgraph
  have hsupported : ∀ n ∈ g.nodes, ∀ tag, ¬ p.Unsupported n tag := by
    intro n hn
    obtain ⟨c, hc, hn⟩ := Supergraph.mem_nodes.1 hn
    obtain ⟨d, hd, -, hnodes⟩ := hclosed.graphs c hc
    have hreach := PointsTo.mem_reachableMethods_of_supergraph hl hs hr hgraph
      (List.mem_map_of_mem hc)
    obtain ⟨f, hf, -⟩ := Outcome.filterMapM_eq_ok.1 hm
    have hunderstood := understood_of_analyzeMethod hb hs.declared (hf _ hreach)
    exact hl.supported hd (hunderstood d hd) (hnodes ▸ hn)
  obtain ⟨calls, hcalls⟩ : ∃ calls, (if settings.inter.enabled then
      some <$> analyzeCalls settings p (some r) g else pure none) = .ok calls := by
    split
    · obtain ⟨a, ha⟩ := Interprocedural.exists_aliasesFor hl hs.declared hclosed
        settings.inter.aliasAware r
      obtain ⟨t, ht, -⟩ :=
        (Interprocedural.solve_least_or_unsupported hb hs.declared hgraph ha).1 hsupported
      exact ⟨some (a, t), by simp [analyzeCalls, ha, ht]⟩
    · exact ⟨none, rfl⟩
  exact ⟨⟨r, methods, g, calls⟩, ⟨hv, hr, hm, hgraph, hcalls⟩, rfl, rfl⟩

end Reachable

/-- When a run fails, and that nothing fails late or is published twice. -/
structure Announces (settings : Settings) (p : Program) : Prop where
  fails : (∃ e, run settings p = .error e) ↔ (∃ e, settings.validate = .error e) ∨
    p.main = none ∨ (∃ s tag, UnknownReference p settings.sensitivity s tag) ∨
    ∃ m, Reached p settings.sensitivity m ∧ ¬ p.Understood m
  error : ∀ e, run settings p = .error e → Fails settings p e
  /-- Once the methods have been analysed, the other stages and the run succeed. -/
  later : ∀ r methods, settings.validate = .ok () →
    PointsTo.analyze p settings.sensitivity = .ok r →
    r.reachableMethods.toList.filterMapM (analyzeMethod settings p) = .ok methods →
    ∃ x : Stages, x.Succeed settings p ∧ x.pointsTo = r ∧ x.methods = methods ∧
      ∃ summary, run settings p = .ok (x.session, summary)
  /-- Whatever methods have been analysed so far, their results can be published. -/
  publishes : ∀ r ms methods, PointsTo.analyze p settings.sensitivity = .ok r →
    ms <+: r.reachableMethods.toList →
    ms.filterMapM (analyzeMethod settings p) = .ok methods →
    ∃ s, Session.empty.publishAll
      ((.pointsTo, .pointsTo r) :: methods.flatMap MethodResults.keyed) = .ok s
  /-- Results are published as soon as their method has been analysed. -/
  visits : ∀ r ms methods, PointsTo.analyze p settings.sensitivity = .ok r →
    ms <+: r.reachableMethods.toList →
    ms.filterMapM (analyzeMethod settings p) = .ok methods →
    ms.foldlM (Progress.visit settings p) { session := ⟨[(.pointsTo, .pointsTo r)]⟩ } =
      .ok (Progress.extend { session := ⟨[(.pointsTo, .pointsTo r)]⟩ } methods)

section

variable (hb : p.Built) (hs : p.Scoped)
include hb hs

theorem fails_of_run (hg : p.Grounded) {e : AnalysisError} (h : run settings p = .error e) :
    Fails settings p e := by
  have hl := hb.layout
  cases hv : settings.validate with
  | error c =>
    cases h.symm.trans (run_of_validate hv)
    exact .config hv
  | ok =>
    obtain ⟨r, hr⟩ | ⟨e', he, hrefuses⟩ :=
      PointsTo.analyze_cases hl hs hg (Settings.validate_eq_ok_iff.1 hv).1
    · by_cases hall : ∀ m ∈ r.reachableMethods, p.Understood m
      · obtain ⟨methods, hm⟩ := Outcome.exists_filterMapM fun m hm =>
          exists_analysis hb hs hr hg hm (hall m hm)
        obtain ⟨x, hx, -⟩ := exists_later_stages hb hs hr hg hv hm
        cases h.symm.trans (hx.run_eq_ok hl)
      · simp only [not_forall] at hall
        obtain ⟨m, hm, hnot⟩ := hall
        obtain ⟨s, tag, hfirst, herror⟩ := exists_firstUnsupported hb hs hr hg hm hnot
        cases h.symm.trans (run_of_methods hl hv hr herror)
        have hsupported := PointsTo.supported_of_analyze hl hs hr
        exact .unknownInteger hv (fun _ _ => hsupported.not_unknownReference) hfirst
    · cases h.symm.trans (run_of_analyze hv he)
      cases hrefuses with
      | noMain hm => exact .noMain hv hm
      | unknown hm hn hx href => exact .unknownReference hv ⟨_, _, _, _, ⟨_, hm⟩, hn, hx, href⟩

theorem Stages.Succeed.understood {x : Stages} (h : x.Succeed settings p)
    (hm : Reached p settings.sensitivity m) : p.Understood m := by
  obtain ⟨f, hf, -⟩ := Outcome.filterMapM_eq_ok.1 h.methods
  have hreach := (PointsTo.reached_iff hb.layout hs h.pointsTo).1 hm
  exact understood_of_analyzeMethod hb hs.declared (hf m hreach)

theorem exists_error_iff (hg : p.Grounded) : (∃ e, run settings p = .error e) ↔
    (∃ e, settings.validate = .error e) ∨ p.main = none ∨
    (∃ s tag, UnknownReference p settings.sensitivity s tag) ∨
    ∃ m, Reached p settings.sensitivity m ∧ ¬ p.Understood m := by
  constructor
  · rintro ⟨e, he⟩
    cases fails_of_run hb hs hg he with
    | config hv => exact .inl ⟨_, hv⟩
    | noMain _ hm => exact .inr (.inl hm)
    | unknownReference _ hr => exact .inr (.inr (.inl ⟨_, _, hr⟩))
    | unknownInteger _ _ hfirst =>
      obtain ⟨m, d, l, l', hm, -, hd, hbody, -, hun⟩ := hfirst
      refine .inr (.inr (.inr ⟨m, hm, fun hall => hall d hd _ ?_ _ hun⟩))
      exact hbody ▸ List.mem_append_right _ (.head _)
  · intro h
    cases hrun : run settings p with
    | error e => exact ⟨e, rfl⟩
    | ok found =>
      -- stages that succeed leave no reason to fail
      obtain ⟨x, hx, -⟩ := exists_stages hb.layout hrun
      rcases h with ⟨e, hv⟩ | hm | ⟨s, tag, hr⟩ | ⟨m, hm, hnot⟩
      · cases hx.valid.symm.trans hv
      · obtain ⟨m, hmain⟩ := PointsTo.exists_main_of_analyze hx.pointsTo
        cases hm.symm.trans hmain
      · have hsupported := PointsTo.supported_of_analyze hb.layout hs hx.pointsTo
        exact absurd hr hsupported.not_unknownReference
      · exact absurd (hx.understood hb hs hm) hnot

end

section

variable (hl : p.Layout) {r : PointsTo.Result} {ms : List MethodId} {methods : List MethodResults}
  (hms : ms <+: r.reachableMethods.toList)
  (hm : ms.filterMapM (analyzeMethod settings p) = .ok methods)
include hl hms hm

/-- While methods are analysed, what they publish goes behind the points-to result. -/
theorem foldlM_visit_reachable :
    ms.foldlM (Progress.visit settings p) { session := ⟨[(.pointsTo, .pointsTo r)]⟩ } =
      .ok (Progress.extend { session := ⟨[(.pointsTo, .pointsTo r)]⟩ } methods) := by
  have hnodup := hms.sublist.nodup r.reachableMethods.nodup
  rw [Progress.foldlM_visit hl hnodup (Progress.ready_initial r ms), hm]
  rfl

theorem exists_publishAll : ∃ s, Session.empty.publishAll
    ((.pointsTo, .pointsTo r) :: methods.flatMap MethodResults.keyed) = .ok s := by
  have hnodup := Progress.nodup_foldlM_visit (Progress.ready_initial r ms).nodup
    (foldlM_visit_reachable hl hms hm)
  exact ⟨_, Session.publishAll_eq_ok hnodup⟩

end

/-- A run fails for the announced reasons and for no others. -/
theorem run_announces (hb : p.Built) (hs : p.Scoped) (hg : p.Grounded) (settings : Settings) :
    Announces settings p where
  fails := exists_error_iff hb hs hg
  error _ := fails_of_run hb hs hg
  later r methods hv hr hm := by
    obtain ⟨x, hx, hpta, hmethods⟩ := exists_later_stages hb hs hr hg hv hm
    exact ⟨x, hx, hpta, hmethods, _, hx.run_eq_ok hb.layout⟩
  publishes r ms methods _ hms hm := exists_publishAll hb.layout hms hm
  visits r ms methods _ hms hm := foldlM_visit_reachable hb.layout hms hm

/-- The sample fails when the odd method is its main method. -/
theorem run_announces_sample :
    Announces (.ofPreset .balanced) Program.sample ∧
    Announces (.ofPreset .balanced) { Program.sample with main := some ⟨1⟩ } ∧
    run (.ofPreset .balanced) { Program.sample with main := some ⟨1⟩ } =
      .error (.unsupportedConstruct .constants ⟨6⟩ "dynamic") := by
  refine ⟨run_announces Program.sample_built Program.sample_scoped Program.sample_grounded _,
    run_announces (Program.sample_built.setMain ⟨1⟩) Program.sample_scoped (by decide) _, ?_⟩
  have hrun : (fun _ => ()) <$> run (.ofPreset .balanced) { Program.sample with main := some ⟨1⟩ } =
      .error (.unsupportedConstruct .constants ⟨6⟩ "dynamic") := by decide +kernel
  cases h : run (.ofPreset .balanced) { Program.sample with main := some ⟨1⟩ } with
  | ok found =>
    rw [h] at hrun
    cases hrun
  | error e =>
    rw [h] at hrun
    cases hrun
    rfl

end Pipeline

end ProgramFlow
