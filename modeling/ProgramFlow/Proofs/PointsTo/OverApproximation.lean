import ProgramFlow.Proofs.PointsTo.Queries
import ProgramFlow.Proofs.PointsTo.Simulation
/-!
A points-to analysis that succeeds covers every run of the program: what it says of variables,
fields, elements, calls, methods and aliases includes all that happens.
-/
namespace ProgramFlow.PointsTo

open Execution

variable {p : Program} {σ : Sensitivity} {r : Result}

namespace Result

/-- The analysed object that the object at an address belongs to. -/
def objectAt (r : Result) (μ : Store) (n : Address) : Option ObjId := do
  let o ← μ.objects[n]?
  r.state.heap.find? o.site

/-- The answers of the analysis include what a run has come to. -/
structure Covers (r : Result) (c : Config) (calls : List (StmtId × MethodId)) : Prop where
  locals : ∀ f ∈ c.frames, ∀ {v n}, f.locals v = some n →
    ∃ o ∈ r.pointsTo v, r.objectAt c.store n = some o
  staticFields : ∀ {f n}, c.store.memory (.staticField f) = some n →
    ∃ o ∈ r.staticFieldPointsTo f, r.objectAt c.store n = some o
  instanceFields : ∀ {b f n}, c.store.memory (.instanceField b f) = some n →
    ∃ base, r.objectAt c.store b = some base ∧
      ∃ o ∈ r.instanceFieldPointsTo base f, r.objectAt c.store n = some o
  arrayElements : ∀ {b index n}, c.store.memory (.arrayElement b index) = some n →
    ∃ base, r.objectAt c.store b = some base ∧
      ∃ o ∈ r.arrayPointsTo base, r.objectAt c.store n = some o
  calls : ∀ x ∈ calls, ⟨x.1, x.2⟩ ∈ r.calls ∧ x.2 ∈ r.reachableMethods
  methods : ∀ f ∈ c.frames, f.method ∈ r.reachableMethods
  /-- Variables of live activations that hold one object may alias. -/
  aliases : ∀ f ∈ c.frames, ∀ g ∈ c.frames, ∀ {v w n}, f.locals v = some n →
    g.locals w = some n → r.mayAlias v w = true

end Result

theorem Chained.exists_situated {ls : List Location} {t : Trail} {m : MethodId} {k : List Frame}
    (h : Chained p σ ls t m k) : ∀ f ∈ k, ∃ t, Situated p σ ls t f := by
  induction h with
  | bottom => simp
  | caller hf _ _ _ ih =>
    intro g hg
    rcases List.mem_cons.1 hg with rfl | hg
    · exact ⟨_, hf⟩
    · exact ih g hg

/-- Every activation has a context. -/
theorem Simulates.exists_situated {ls : List Location} {t : Trail} {c : Config}
    {calls : List (StmtId × MethodId)} (h : Simulates p σ ls t c calls) :
    ∀ f ∈ c.frames, ∃ t, Situated p σ ls t f := by
  intro f hf
  rcases List.mem_cons.1 hf with rfl | hf
  · exact ⟨t, h.top⟩
  · exact h.callers.exists_situated f hf

section

variable (h : Balanced p σ (Derivable p σ) r.state ∅) (hdone : r.state.pending.toList = [])
include h hdone

/-- The location of an object leads to the analysed object. -/
theorem Charted.objectAt_eq {ls : List Location} {μ : Store} (hμ : Charted p σ ls μ) {n : Address}
    {l : Location} (hl : ls[n]? = some l) :
    ∃ o, r.objectAt μ n = some o ∧ r.state.heap.find? l.site = some o := by
  obtain ⟨x, hx, hsite, -, a, ha⟩ := hμ.exists_object hl
  obtain ⟨f, -, hread⟩ := h.exists_of_derivable hdone ha
  obtain ⟨_, c, -, -, hc⟩ := State.of_read_pointsTo hread
  obtain ⟨clone, _, hclone, -⟩ := State.location_eq_some_iff.1 hc
  have hfind := (State.find?_site hc).2 ⟨clone, hclone, rfl⟩
  refine ⟨clone.obj, ?_, hfind⟩
  rw [Result.objectAt, hx, ← hfind, ← hsite]
  rfl

variable {ls : List Location} {t : Trail} {c : Config} {calls : List (StmtId × MethodId)}
  (hsim : Simulates p σ ls t c calls)
include hsim

theorem Simulates.local_covered {f : Frame} (hf : f ∈ c.frames) {v : VarId} {n : Address}
    (hv : f.locals v = some n) : ∃ o ∈ r.pointsTo v, r.objectAt c.store n = some o := by
  obtain ⟨t, hf⟩ := hsim.exists_situated f hf
  obtain ⟨l, hl, hd⟩ := hf.locals hv
  obtain ⟨o, ho, hfind⟩ := hsim.store.objectAt_eq h hdone hl
  exact ⟨o, (r.mem_pointsTo h hdone).2 ⟨t, l, hd, hfind⟩, ho⟩

theorem Simulates.covers : r.Covers c calls where
  locals f hf v n hv := hsim.local_covered h hdone hf hv
  staticFields {f n} hn := by
    obtain ⟨a, hx, l, hl, hd⟩ := hsim.store.memory hn
    cases hx
    obtain ⟨o, ho, hfind⟩ := hsim.store.objectAt_eq h hdone hl
    exact ⟨o, (r.mem_staticFieldPointsTo h hdone).2 ⟨l, hd, hfind⟩, ho⟩
  instanceFields {b f n} hn := by
    obtain ⟨a, hx, l, hl, hd⟩ := hsim.store.memory hn
    cases hx with
    | instanceField hb =>
      obtain ⟨base, hbase, hfindbase⟩ := hsim.store.objectAt_eq h hdone hb
      obtain ⟨o, ho, hfind⟩ := hsim.store.objectAt_eq h hdone hl
      exact ⟨base, hbase, o,
        (r.mem_instanceFieldPointsTo h hdone).2 ⟨_, l, hd, hfindbase, hfind⟩, ho⟩
  arrayElements {b index n} hn := by
    obtain ⟨a, hx, l, hl, hd⟩ := hsim.store.memory hn
    cases hx with
    | arrayElement hb =>
      obtain ⟨base, hbase, hfindbase⟩ := hsim.store.objectAt_eq h hdone hb
      obtain ⟨o, ho, hfind⟩ := hsim.store.objectAt_eq h hdone hl
      exact ⟨base, hbase, o, (r.mem_arrayPointsTo h hdone).2 ⟨_, l, hd, hfindbase, hfind⟩, ho⟩
  calls x hx := by
    obtain ⟨i, hi, hsite, hcallee⟩ := hsim.calls x hx
    have hreach : Derivable p σ (.reachable i.calleeTrail i.callee) := .linked hi .reachable
    exact ⟨(r.mem_calls h hdone).2 ⟨i, hi, hsite, hcallee⟩,
      (r.mem_reachableMethods h hdone).2 ⟨_, hcallee ▸ hreach⟩⟩
  methods f hf := by
    obtain ⟨t, hf⟩ := hsim.exists_situated f hf
    exact (r.mem_reachableMethods h hdone).2 ⟨t, hf.reachable⟩
  aliases f hf g hg v w n hv hw := by
    obtain ⟨o, ho, hn⟩ := hsim.local_covered h hdone hf hv
    obtain ⟨o', ho', hn'⟩ := hsim.local_covered h hdone hg hw
    cases hn.symm.trans hn'
    exact r.mayAlias_iff.2 ⟨o, ho, ho'⟩

end

/-- An analysis that succeeds covers every configuration of every run. -/
theorem analyze_covers (hb : p.Built) (hs : p.Scoped) (h : analyze p σ = .ok r) {c : Config}
    {calls : List (StmtId × MethodId)} (hrun : Run p c calls) : r.Covers c calls := by
  obtain ⟨hbal, hdone⟩ := analyze_ensures hb.layout hs h
  obtain ⟨ls, t, hsim⟩ := exists_simulates hb.layout hrun
  exact hsim.covers hbal hdone

/-- The sample runs up to the call on its cell. -/
theorem analyze_covers_sample : ∃ r c, analyze Program.sample (.object 1) = .ok r ∧
    c.top.locals ⟨0⟩ = some 0 ∧ r.Covers c [(⟨12⟩, ⟨0⟩)] := by
  have hok : (analyze Program.sample (.object 1)).toOption.isSome = true := by decide +kernel
  obtain ⟨r, hr⟩ : ∃ r, analyze Program.sample (.object 1) = .ok r := by
    cases h : analyze Program.sample (.object 1) with
    | error e => rw [h] at hok; cases hok
    | ok r => exact ⟨r, rfl⟩
  obtain ⟨g, hg, hsuccs⟩ : ∃ g, Program.sample.controlFlow ⟨2⟩ = .ok g ∧
      ∀ s ∈ [8, 9, 10, 11], (⟨s + 1⟩ : StmtId) ∈ g.succs ⟨s⟩ := ⟨_, rfl, by decide⟩
  have hpass : ∀ s ∈ [8, 9, 10, 11], ∀ ρ, Frame.Passes Program.sample ⟨⟨2⟩, ⟨s⟩, ρ⟩ ⟨s + 1⟩ :=
    fun s hs _ => ⟨g, hg, hsuccs s hs⟩
  have hentry := (Run.start (p := Program.sample) rfl rfl).step
    (.advance rfl (.primitive rfl) (hpass 8 (by decide) _))
  have hnew := hentry.step (.advance rfl .new (hpass 9 (by decide) _))
  have hliteral := hnew.step (.advance rfl (.primitive rfl) (hpass 10 (by decide) _))
  have hstore := hliteral.step (.advance rfl (.store rfl) (hpass 11 (by decide) _))
  have hcall := hstore.step (.call rfl (.instance (by decide) rfl rfl rfl rfl) rfl)
  exact ⟨r, _, hr, rfl, analyze_covers Program.sample_built Program.sample_scoped hr hcall⟩

end ProgramFlow.PointsTo
