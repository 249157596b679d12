import ProgramFlow.Proofs.Interprocedural.Precision
import ProgramFlow.Proofs.Pipeline.Stages
/-!
A run with more context or with aliases finds no less precise facts: it succeeds where the other run
does, and each stage passes the order on to the next.
-/
namespace ProgramFlow

open PointsTo (Sensitivity)

namespace Settings

theorem validate_eq_ok_iff {s : Settings} : s.validate = .ok () ↔
    s.sensitivity.validate = .ok () ∧ (s.inter.aliasAware = true → s.inter.enabled = true) := by
  unfold validate
  cases s.sensitivity.validate with
  | error e => exact ⟨nofun, nofun⟩
  | ok => cases s.inter.aliasAware <;> cases s.inter.enabled <;> simp [bind, Except.bind, pure,
      Except.pure, throw, throwThe, MonadExceptOf.throw]

/-- The first settings ask for more context and, if the second do, for aliases. -/
structure Refines (s s' : Settings) : Prop where
  sensitivity : s.sensitivity.Refines s'.sensitivity
  schedule : s.schedule = s'.schedule
  deadCode : s.deadCode = s'.deadCode
  enabled : s.inter.enabled = s'.inter.enabled
  aliasAware : s'.inter.aliasAware = true → s.inter.aliasAware = true

theorem refines_precise : (ofPreset .precise).Refines (ofPreset .balanced) :=
  ⟨.single (.object 1), rfl, rfl, rfl, fun _ => rfl⟩

theorem refines_balanced : (ofPreset .balanced).Refines (ofPreset .fast) :=
  ⟨.single (.insensitive _), rfl, rfl, rfl, fun _ => rfl⟩

end Settings

namespace PointsTo

section

variable {p : Program} {σ : Sensitivity} {r : Result}
variable (hl : p.Layout) (hs : p.Scoped) (h : analyze p σ = .ok r)
include hl hs h

/-- The calls that an analysis finds make a supergraph. -/
theorem exists_supergraph_of_analyze (hg : p.Grounded) : ∃ g, p.supergraph r.entryMethods
    (r.calls.toList.map fun c => (c.site, c.callee)) = .ok g := by
  obtain ⟨hbal, hdone⟩ := analyze_ensures hl hs h
  have hdeclared : ∀ m ∈ r.reachableMethods, ∃ d, p.method m = .ok d := by
    intro m hm
    obtain ⟨t, hd⟩ := (Result.mem_reachableMethods hbal hdone).1 hm
    exact hd.exists_method hg
  obtain ⟨entry, hmain⟩ := exists_main_of_analyze h
  refine Program.exists_supergraph hl ?_ ?_ (by simp [entryMethods_eq hmain h])
  · exact fun m hm => hdeclared m (entry_mem_reachableMethods hl hs h hm)
  · intro c hc
    obtain ⟨x, hx, rfl⟩ := List.mem_map.1 hc
    exact hdeclared _ (Result.callee_mem_reachableMethods hbal hdone hx)

/-- The supergraph has reachable methods only. -/
theorem mem_reachableMethods_of_supergraph {g : Supergraph}
    (hgraph : p.supergraph r.entryMethods
      (r.calls.toList.map fun c => (c.site, c.callee)) = .ok g) {m : MethodId}
    (hm : m ∈ g.methods) : m ∈ r.reachableMethods := by
  obtain ⟨hbal, hdone⟩ := analyze_ensures hl hs h
  refine Program.forall_of_reachableMethods (fun m => entry_mem_reachableMethods hl hs h) ?_
    (Program.supergraph_eq_ok hgraph).methods m hm
  intro m hm d hd s hs' callee hcall
  obtain ⟨x, hx, heq⟩ := List.mem_map.1 hcall
  cases heq
  exact Result.callee_mem_reachableMethods hbal hdone hx

end

end PointsTo

namespace Pipeline

open Dataflow (Table)
open Interprocedural (Below)

variable {p : Program} {settings settings' : Settings} {x' : Stages}

/-- At the nodes of the graph the first facts are at or below the second, before and after. -/
def Improved (g : Supergraph) (t t' : Table Fact) : Prop :=
  ∀ n ∈ g.nodes, Below t.arriving t'.arriving n ∧ Below t.leaving t'.leaving n

/-- The first session has nothing worse than the second. -/
structure Improves (s s' : Session Published) (g g' : Supergraph) : Prop where
  supergraph : s.get? Published.supergraph? .supergraph = some g
  coarser : s'.get? Published.supergraph? .supergraph = some g'
  within : g.Within g'
  deadCode : ∀ m ∈ g.methods, m ∈ g'.methods →
    s.get? Published.deadCode? (.deadCode m) = s'.get? Published.deadCode? (.deadCode m)
  facts : Option.Rel (Improved g)
    (s.get? Published.constants? .interConstants) (s'.get? Published.constants? .interConstants)

/-- The last stage is handed on less by finer settings and finds no worse facts. -/
theorem exists_calls (hb : p.Built) (hs : p.Scoped) (href : settings.Refines settings')
    {r r' : PointsTo.Result} {g g' : Supergraph}
    (hr : ∀ v w, r.mayAlias v w = true → r'.mayAlias v w = true) (hw : g.Within g')
    (hclosed : g.Closed p) (hclosed' : g'.Closed p)
    {calls' : Option (Option Interprocedural.Aliases × Table Fact)}
    (hcalls' : (if settings'.inter.enabled then some <$> analyzeCalls settings' p (some r') g'
      else pure none) = .ok calls') :
    ∃ calls, (if settings.inter.enabled then some <$> analyzeCalls settings p (some r) g
      else pure none) = .ok calls ∧
      Option.Rel (fun found found' => Improved g found.2 found'.2) calls calls' := by
  rw [href.enabled]
  split at hcalls'
  · next henabled =>
    obtain ⟨⟨a', t'⟩, hfound', rfl⟩ := Outcome.map_eq_ok.1 hcalls'
    obtain ⟨_, ha', hfound'⟩ := Outcome.bind_eq_ok.1 hfound'
    obtain ⟨_, ht', hfound'⟩ := Outcome.bind_eq_ok.1 hfound'
    cases hfound'
    obtain ⟨a, t, ha, ht, hbelow⟩ := Interprocedural.exists_solve_below hw hr hb.layout hs.declared
      hclosed hclosed' href.aliasAware ha' ht'
    exact ⟨some (a, t), by simp [henabled, analyzeCalls, ha, ht], .some hbelow⟩
  · next hdisabled =>
    cases hcalls'
    exact ⟨none, by simp [hdisabled], .none⟩

namespace Stages

/-- Where the stages succeed with coarser settings, they succeed with finer ones. -/
theorem Succeed.exists_finer (hb : p.Built) (hs : p.Scoped) (hg : p.Grounded)
    (href : settings.Refines settings') (hvalid : settings.validate = .ok ())
    (h' : x'.Succeed settings' p) : ∃ x : Stages, x.Succeed settings p ∧ x.graph.Within x'.graph ∧
      Option.Rel (fun found found' => Improved x.graph found.2 found'.2) x.calls x'.calls := by
  have hl := hb.layout
  obtain ⟨r, hr, hwithin⟩ := href.sensitivity.exists_analyze hb hs hg
    (Settings.validate_eq_ok_iff.1 hvalid).1 h'.pointsTo
  obtain ⟨hbal, hdone⟩ := PointsTo.analyze_ensures hl hs hr
  -- Only what is reachable with the coarser settings is analysed.
  obtain ⟨methods, hmethods⟩ : ∃ methods, r.reachableMethods.toList.filterMapM
      (analyzeMethod settings p) = .ok methods := by
    obtain ⟨f, hf, -⟩ := Outcome.filterMapM_eq_ok.1 h'.methods
    rw [analyzeMethod_congr href.schedule href.deadCode]
    exact Outcome.exists_filterMapM fun m hm => ⟨f m, hf m (hwithin.reachable m hm)⟩
  obtain ⟨g, hgraph⟩ := PointsTo.exists_supergraph_of_analyze hl hs hr hg
  have hw : g.Within x'.graph := by
    obtain ⟨entry, hmain⟩ := PointsTo.exists_main_of_analyze hr
    have hgraph' := h'.graph
    rw [PointsTo.entryMethods_eq hmain h'.pointsTo, ← PointsTo.entryMethods_eq hmain hr] at hgraph'
    refine Program.within_of_supergraph hgraph hgraph' fun c hc => ?_
    obtain ⟨x, hx, rfl⟩ := List.mem_map.1 hc
    exact List.mem_map.2 ⟨x, hwithin.calls x hx, rfl⟩
  obtain ⟨calls, hcalls, himproved⟩ := exists_calls hb hs href
    (fun v w => hwithin.mayAlias hbal hdone) hw (hl.supergraph_closed hgraph)
    (hl.supergraph_closed h'.graph) h'.calls
  exact ⟨⟨r, methods, g, calls⟩, ⟨hvalid, hr, hmethods, hgraph, hcalls⟩, hw, himproved⟩

/-- What stages with finer settings publish is no worse. -/
theorem Succeed.improves {x : Stages} (hb : p.Built) (hs : p.Scoped)
    (href : settings.Refines settings') (h : x.Succeed settings p) (h' : x'.Succeed settings' p)
    (hw : x.graph.Within x'.graph) (hcalls : Option.Rel
      (fun found found' => Improved x.graph found.2 found'.2) x.calls x'.calls) :
    Improves x.session x'.session x.graph x'.graph where
  supergraph := h.get?_supergraph hb.layout
  coarser := h'.get?_supergraph hb.layout
  within := hw
  deadCode m hm hm' := by
    have hreach := PointsTo.mem_reachableMethods_of_supergraph hb.layout hs h.pointsTo h.graph hm
    have hreach' :=
      PointsTo.mem_reachableMethods_of_supergraph hb.layout hs h'.pointsTo h'.graph hm'
    apply Option.ext
    intro report
    rw [h.get?_deadCode hb.layout, h'.get?_deadCode hb.layout,
      analyzeMethod_congr href.schedule href.deadCode]
    simp only [hreach, hreach']
  facts := by
    rw [h.get?_interConstants hb.layout, h'.get?_interConstants hb.layout]
    generalize x.calls = calls, x'.calls = calls' at hcalls
    cases hcalls with
    | none => exact .none
    | some hfacts => exact .some hfacts

end Stages

/-- Where a run with the second settings succeeds, one with the first succeeds and is no worse. -/
def Dominates (p : Program) (settings settings' : Settings) : Prop :=
  ∀ session' summary', run settings' p = .ok (session', summary') →
    ∃ session summary g g', run settings p = .ok (session, summary) ∧
      Improves session session' g g'

theorem dominates_of_refines (href : settings.Refines settings') (hb : p.Built)
    (hs : p.Scoped) (hg : p.Grounded)
    (hvalid : settings'.validate = .ok () → settings.validate = .ok ()) :
    Dominates p settings settings' := by
  intro session' summary' h'
  obtain ⟨x', hx', rfl⟩ := exists_stages hb.layout h'
  obtain ⟨x, h, hw, hcalls⟩ := hx'.exists_finer hb hs hg href (hvalid hx'.valid)
  exact ⟨x.session, _, x.graph, x'.graph, h.run_eq_ok hb.layout, h.improves hb hs href hx' hw hcalls⟩

/-- A finer points-to analysis never makes a run worse, and neither does a higher preset. -/
theorem dominates_of_finer (hb : p.Built) (hs : p.Scoped) (hg : p.Grounded) :
    (∀ (settings : Settings) (σ : Sensitivity), σ.Refines settings.sensitivity →
      σ.validate = .ok () → Dominates p { settings with sensitivity := σ } settings) ∧
    Dominates p (.ofPreset .precise) (.ofPreset .balanced) ∧
    Dominates p (.ofPreset .balanced) (.ofPreset .fast) := by
  refine ⟨fun settings σ hσ hvalid => ?_, ?_, ?_⟩
  · have href : Settings.Refines { settings with sensitivity := σ } settings :=
      ⟨hσ, rfl, rfl, rfl, id⟩
    refine dominates_of_refines href hb hs hg fun h => Settings.validate_eq_ok_iff.2 ⟨hvalid, ?_⟩
    exact (Settings.validate_eq_ok_iff.1 h).2
  · exact dominates_of_refines Settings.refines_precise hb hs hg fun _ => rfl
  · exact dominates_of_refines Settings.refines_balanced hb hs hg fun _ => rfl

/-- All presets succeed on the sample. -/
theorem dominates_of_finer_sample : ∃ fast balanced precise : Session Published × Summary,
    run (.ofPreset .fast) Program.sample = .ok fast ∧
    run (.ofPreset .balanced) Program.sample = .ok balanced ∧
    run (.ofPreset .precise) Program.sample = .ok precise ∧
    (∃ g g', Improves balanced.1 fast.1 g g') ∧ ∃ g g', Improves precise.1 balanced.1 g g' := by
  have hok : (run (.ofPreset .fast) Program.sample).toOption.isSome = true := by decide +kernel
  obtain ⟨⟨session, summary⟩, hrun⟩ : ∃ x, run (.ofPreset .fast) Program.sample = .ok x := by
    cases h : run (.ofPreset .fast) Program.sample with
    | ok x => exact ⟨x, rfl⟩
    | error e =>
      rw [h] at hok
      cases hok
  obtain ⟨-, hprecise, hbalanced⟩ := dominates_of_finer Program.sample_built
    Program.sample_scoped Program.sample_grounded
  obtain ⟨session', summary', g, g', hrun', himproves⟩ := hbalanced _ _ hrun
  obtain ⟨session'', summary'', x, x', hrun'', himproves'⟩ := hprecise _ _ hrun'
  exact ⟨_, _, _, hrun, hrun', hrun'', ⟨g, g', himproves⟩, x, x', himproves'⟩

end Pipeline

end ProgramFlow
