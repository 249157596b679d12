import ProgramFlow.Proofs.PointsTo.Entries
import ProgramFlow.Proofs.PointsTo.Projection
/-!
More context never costs precision. Numbers and contexts differ from one analysis to the other, so
objects are compared by the sites that allocate them.
-/
namespace ProgramFlow.PointsTo

namespace Result

/-- The site that allocates an object. -/
def siteOf? (r : Result) (o : ObjId) : Option StmtId := (r.state.heap.get? o).map (·.site)

/-- The sites that allocate the objects. -/
def sites (r : Result) (objs : SortedSet ObjId) : Set StmtId := {n | ∃ o ∈ objs, r.siteOf? o = some n}

/-- What a field of the objects of a site points to, by sites. -/
def fieldSites (r : Result) (base : StmtId) (f : FieldId) : Set StmtId :=
  {n | ∃ b, r.siteOf? b = some base ∧ n ∈ r.sites (r.instanceFieldPointsTo b f)}

/-- What the elements of the arrays of a site point to, by sites. -/
def arraySites (r : Result) (base : StmtId) : Set StmtId :=
  {n | ∃ b, r.siteOf? b = some base ∧ n ∈ r.sites (r.arrayPointsTo b)}

/-- One analysis finds nothing that the other does not find. -/
structure Within (r r' : Result) : Prop where
  pointsTo : ∀ v, r.sites (r.pointsTo v) ⊆ r'.sites (r'.pointsTo v)
  staticField : ∀ f, r.sites (r.staticFieldPointsTo f) ⊆ r'.sites (r'.staticFieldPointsTo f)
  instanceField : ∀ base f, r.fieldSites base f ⊆ r'.fieldSites base f
  array : ∀ base, r.arraySites base ⊆ r'.arraySites base
  calls : ∀ x ∈ r.calls, x ∈ r'.calls
  reachable : ∀ m ∈ r.reachableMethods, m ∈ r'.reachableMethods

theorem siteOf?_eq_some_iff {r : Result} {o : ObjId} {n : StmtId} :
    r.siteOf? o = some n ↔ r.state.heap.find? n = some o :=
  Option.map_eq_some_iff.trans Numbering.find?_eq_some_iff.symm

section

variable {p : Program} {σ : Sensitivity} {r : Result} {n base : StmtId} {a : Slot} {l : Location}

theorem exists_siteOf? {o : ObjCloneId} (h : r.state.location o = some l) :
    ∃ x, r.siteOf? x = some l.site := by
  obtain ⟨clone, obj, -, hobj, -, hsite⟩ := State.location_eq_some_iff.1 h
  exact ⟨clone.obj, Option.map_eq_some_iff.2 ⟨obj, hobj, hsite⟩⟩

variable (h : Balanced p σ (Derivable p σ) r.state ∅) (hdone : r.state.pending.toList = [])
include h hdone

/-- The objects that a judgement is about have been allocated. -/
theorem exists_object (hd : Derivable p σ (.pointsTo a l)) :
    (∃ x, r.siteOf? x = some l.site) ∧
      ∀ b, (∃ f, a = .instanceField b f) ∨ a = .arrayElement b → ∃ x, r.siteOf? x = some b.site := by
  obtain ⟨f, -, hread⟩ := h.exists_of_derivable hdone hd
  obtain ⟨x, o, rfl, hx, hloc⟩ := State.of_read_pointsTo hread
  obtain ⟨pointer, -, hslot⟩ := State.slot_eq_some_iff.1 hx
  refine ⟨exists_siteOf? hloc, fun b hb => ?_⟩
  rcases State.of_slotOf hslot with ⟨c, t, v, -, -, rfl⟩ | ⟨f, -, rfl⟩ | ⟨c, l', f, -, hc, rfl⟩ |
    ⟨c, l', -, hc, rfl⟩
  · simp at hb
  · simp at hb
  · obtain ⟨_, heq⟩ := hb.resolve_right nofun
    cases heq
    exact exists_siteOf? hc
  · cases hb.resolve_left nofun
    exact exists_siteOf? hc

theorem mem_sites_pointsTo {v : VarId} : n ∈ r.sites (r.pointsTo v) ↔
    ∃ t l, Derivable p σ (.pointsTo (.var t v) l) ∧ l.site = n := by
  constructor
  · rintro ⟨o, ho, hn⟩
    obtain ⟨t, l, hd, hfind⟩ := (mem_pointsTo h hdone).1 ho
    cases (siteOf?_eq_some_iff.2 hfind).symm.trans hn
    exact ⟨t, l, hd, rfl⟩
  · rintro ⟨t, l, hd, rfl⟩
    obtain ⟨o, ho⟩ := (exists_object h hdone hd).1
    exact ⟨o, (mem_pointsTo h hdone).2 ⟨t, l, hd, siteOf?_eq_some_iff.1 ho⟩, ho⟩

theorem mem_sites_staticField {f : FieldId} : n ∈ r.sites (r.staticFieldPointsTo f) ↔
    ∃ l, Derivable p σ (.pointsTo (.staticField f) l) ∧ l.site = n := by
  constructor
  · rintro ⟨o, ho, hn⟩
    obtain ⟨l, hd, hfind⟩ := (mem_staticFieldPointsTo h hdone).1 ho
    cases (siteOf?_eq_some_iff.2 hfind).symm.trans hn
    exact ⟨l, hd, rfl⟩
  · rintro ⟨l, hd, rfl⟩
    obtain ⟨o, ho⟩ := (exists_object h hdone hd).1
    exact ⟨o, (mem_staticFieldPointsTo h hdone).2 ⟨l, hd, siteOf?_eq_some_iff.1 ho⟩, ho⟩

theorem mem_fieldSites {f : FieldId} : n ∈ r.fieldSites base f ↔
    ∃ b l, Derivable p σ (.pointsTo (.instanceField b f) l) ∧ b.site = base ∧ l.site = n := by
  constructor
  · rintro ⟨x, hx, o, ho, hn⟩
    obtain ⟨b, l, hd, hb, hl⟩ := (mem_instanceFieldPointsTo h hdone).1 ho
    cases (siteOf?_eq_some_iff.2 hl).symm.trans hn
    cases (siteOf?_eq_some_iff.2 hb).symm.trans hx
    exact ⟨b, l, hd, rfl, rfl⟩
  · rintro ⟨b, l, hd, rfl, rfl⟩
    obtain ⟨⟨o, ho⟩, hbase⟩ := exists_object h hdone hd
    obtain ⟨x, hx⟩ := hbase b (.inl ⟨f, rfl⟩)
    exact ⟨x, hx, o, (mem_instanceFieldPointsTo h hdone).2
      ⟨b, l, hd, siteOf?_eq_some_iff.1 hx, siteOf?_eq_some_iff.1 ho⟩, ho⟩

theorem mem_arraySites : n ∈ r.arraySites base ↔
    ∃ b l, Derivable p σ (.pointsTo (.arrayElement b) l) ∧ b.site = base ∧ l.site = n := by
  constructor
  · rintro ⟨x, hx, o, ho, hn⟩
    obtain ⟨b, l, hd, hb, hl⟩ := (mem_arrayPointsTo h hdone).1 ho
    cases (siteOf?_eq_some_iff.2 hl).symm.trans hn
    cases (siteOf?_eq_some_iff.2 hb).symm.trans hx
    exact ⟨b, l, hd, rfl, rfl⟩
  · rintro ⟨b, l, hd, rfl, rfl⟩
    obtain ⟨⟨o, ho⟩, hbase⟩ := exists_object h hdone hd
    obtain ⟨x, hx⟩ := hbase b (.inr rfl)
    exact ⟨x, hx, o, (mem_arrayPointsTo h hdone).2
      ⟨b, l, hd, siteOf?_eq_some_iff.1 hx, siteOf?_eq_some_iff.1 ho⟩, ho⟩

/-- A projection takes what one analysis finds to what the other finds. -/
theorem within_of_projection {σ' : Sensitivity} {r' : Result} (π : Projection p σ σ')
    (h' : Balanced p σ' (Derivable p σ') r'.state ∅)
    (hdone' : r'.state.pending.toList = []) : r.Within r' where
  pointsTo v n hn := by
    obtain ⟨t, l, hd, hl⟩ := (mem_sites_pointsTo h hdone).1 hn
    exact (mem_sites_pointsTo h' hdone').2 ⟨_, _, π.derivable hd, hl⟩
  staticField f n hn := by
    obtain ⟨l, hd, hl⟩ := (mem_sites_staticField h hdone).1 hn
    exact (mem_sites_staticField h' hdone').2 ⟨_, π.derivable hd, hl⟩
  instanceField base f n hn := by
    obtain ⟨b, l, hd, hb, hl⟩ := (mem_fieldSites h hdone).1 hn
    exact (mem_fieldSites h' hdone').2 ⟨_, _, π.derivable hd, hb, hl⟩
  array base n hn := by
    obtain ⟨b, l, hd, hb, hl⟩ := (mem_arraySites h hdone).1 hn
    exact (mem_arraySites h' hdone').2 ⟨_, _, π.derivable hd, hb, hl⟩
  calls x hx := by
    obtain ⟨i, hd, hsite, hcallee⟩ := (mem_calls h hdone).1 hx
    exact (mem_calls h' hdone').2 ⟨_, π.derivable hd, hsite, hcallee⟩
  reachable m hm := by
    obtain ⟨t, hd⟩ := (mem_reachableMethods h hdone).1 hm
    exact (mem_reachableMethods h' hdone').2 ⟨_, π.derivable hd⟩

end

end Result

section

variable {p : Program} {σ σ' : Sensitivity}

namespace Projection

variable (π : Projection p σ σ')
include π

/-- What the finer analysis reaches, the coarser one reaches. -/
theorem supported (h : Supported p σ') : Supported p σ :=
  fun _ _ _ _ _ _ _ hm hn hx => h (π.derivable hm) hn hx

variable (hb : p.Built) (hs : p.Scoped)
include hb hs

theorem exists_solve (hg : p.Grounded) {s' : State}
    (hrun' : (solve p σ').run .initial = (.ok (), s')) :
    ∃ s, (solve p σ).run .initial = (.ok (), s) := by
  obtain ⟨m, hm⟩ := exists_main_of_solve hrun'
  exact PointsTo.exists_solve hb.layout hs hg hm
    (π.supported (supported_of_solve hb.layout hs hrun'))

theorem within {r r' : Result} (hrun : (solve p σ).run .initial = (.ok (), r.state))
    (hrun' : (solve p σ').run .initial = (.ok (), r'.state)) : r.Within r' := by
  obtain ⟨hbal, hdone⟩ := solve_ensures hb.layout hs () _ hrun
  obtain ⟨hbal', hdone'⟩ := solve_ensures hb.layout hs () _ hrun'
  exact Result.within_of_projection hbal hdone π hbal' hdone'

end Projection

theorem Sensitivity.Refines.exists_analyze (h : σ.Refines σ') (hb : p.Built) (hs : p.Scoped)
    (hg : p.Grounded) (hvalid : σ.validate = .ok ()) {r' : Result}
    (hr' : analyze p σ' = .ok r') : ∃ r, analyze p σ = .ok r ∧ r.Within r' := by
  obtain ⟨-, -, hrun'⟩ := analyze_eq_ok_iff.1 hr'
  obtain ⟨π⟩ := h.exists_projection hb.layout
  obtain ⟨s, hrun⟩ := π.exists_solve hb hs hg hrun'
  obtain ⟨r, hr, rfl⟩ := exists_analyze_of_solve hvalid hrun
  exact ⟨r, hr, π.within hb hs hrun hrun'⟩

/-- Where the coarser analysis succeeds, the finer one succeeds and finds no more. -/
theorem exists_solve_within (h : σ.Finer σ') (hb : p.Built) (hs : p.Scoped) (hg : p.Grounded)
    {s' : State} (hrun' : (solve p σ').run .initial = (.ok (), s')) :
    ∃ s, (solve p σ).run .initial = (.ok (), s) ∧ ∃ r r', Result.ofState σ s = .ok r ∧
      Result.ofState σ' s' = .ok r' ∧ r.Within r' := by
  obtain ⟨π⟩ := h.exists_projection hb.layout
  obtain ⟨s, hrun⟩ := π.exists_solve hb hs hg hrun'
  obtain ⟨r, hr⟩ := (State.resolved_initial.solve () s hrun).exists_ofState σ
  obtain ⟨r', hr'⟩ := (State.resolved_initial.solve () s' hrun').exists_ofState σ'
  obtain ⟨-, rfl⟩ := Result.ofState_eq_ok_iff.1 hr
  obtain ⟨-, rfl⟩ := Result.ofState_eq_ok_iff.1 hr'
  exact ⟨_, hrun, r, r', hr, hr', π.within hb hs hrun hrun'⟩

/-- In the sample the insensitive analysis succeeds. -/
theorem exists_solve_within_sample : ∃ s s',
    (solve Program.sample (.object 1)).run .initial = (.ok (), s) ∧
    (solve Program.sample .insensitive).run .initial = (.ok (), s') ∧
    ∃ r r', Result.ofState (.object 1) s = .ok r ∧ Result.ofState .insensitive s' = .ok r' ∧
      r.Within r' := by
  have hrun : ((solve Program.sample .insensitive).run .initial).1 = .ok () := by decide +kernel
  obtain ⟨s', hs'⟩ := SolverM.exists_run_eq hrun
  obtain ⟨s, hs, hwithin⟩ := exists_solve_within (.insensitive (.object 1))
    Program.sample_built Program.sample_scoped Program.sample_grounded hs'
  exact ⟨s, s', hs, hs', hwithin⟩

end

end ProgramFlow.PointsTo
