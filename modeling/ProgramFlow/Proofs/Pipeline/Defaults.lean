import ProgramFlow.Proofs.Interprocedural.Accesses
import ProgramFlow.Proofs.Interprocedural.Soundness
import ProgramFlow.Proofs.Pipeline.Coverage
import ProgramFlow.Proofs.PointsTo.Tracing
/-!
Loads of integers that nothing has written. A run reads a zero there, but the aliases know stores
only: the load gets what the stores write that may touch the place, at whatever time they run, and
the zero counts if it is among these values or they do not agree.
-/
namespace ProgramFlow.Machine

open Interprocedural (loadedVar?)

/-- The activation is about to load an integer into the variable, from a place that nothing has
written. -/
inductive Frame.LoadsDefault (p : Program) (μ : Memory) : Frame → StmtId → VarId → Prop
  | intro {f d n i lhs x} (hd : p.method f.method = .ok d) (hn : d.point f.position = n)
    (hi : p.instr n = .ok i) (hl : loadedVar? i = some lhs) (hint : p.isIntVar lhs = .ok true)
    (hx : f.locals.place? i = some x) (hc : μ.cells x = none) : LoadsDefault p μ f n lhs

theorem Frame.not_loadsDefault {p : Program} {μ : Memory} {f : Frame} {d : MethodDecl} {i : Instr}
    (hd : p.method f.method = .ok d) (hi : p.instr (d.point f.position) = .ok i)
    (hl : loadedVar? i = none) {n : StmtId} {lhs : VarId} : ¬ f.LoadsDefault p μ n lhs := by
  rintro ⟨hd', rfl, hi', hl', -, -, -⟩
  cases hd.symm.trans hd'
  cases hi.symm.trans hi'
  cases hl.symm.trans hl'

/-- The memories and stacks of the runs from the main method in which an integer is zero until it is
written. The parameters of main may be any integers, but refer to no objects. -/
inductive StartsFromZero (A : Arithmetic) (p : Program) : Memory → List Frame → Prop
  | start {m d ρ} (hm : p.main = some m) (hd : p.method m = .ok d) (hρ : Starts p d ρ)
    (hnull : ∀ v, ρ.addresses v = none) : StartsFromZero A p .empty [⟨m, 0, ρ⟩]
  | step {μ μ' f fs fs' a} (h : StartsFromZero A p μ (f :: fs))
    (hzero : ∀ n lhs, f.LoadsDefault p μ n lhs → a = .go (.done (some (.int 0))))
    (hs : Moves A p (f :: fs) a fs') (hr : Responds p μ (f :: fs) a μ') : StartsFromZero A p μ' fs'

/-- The points-to rules follow these runs. -/
theorem StartsFromZero.exists_simulates {A : Arithmetic} {p : Program} {σ : PointsTo.Sensitivity}
    (hl : p.Layout) {μ : Memory} {fs : List Frame} (h : StartsFromZero A p μ fs) :
    ∃ f callers ls trail calls, fs = f :: callers ∧
      PointsTo.Simulates p σ ls trail (image p μ f callers) calls := by
  induction h with
  | start hm hd _ hnull =>
    obtain ⟨ls, trail, hsim⟩ := PointsTo.exists_simulates_start (σ := σ) hl hm hd hnull
    exact ⟨_, _, ls, trail, [], rfl, hsim⟩
  | step _ _ hs hr ih =>
    obtain ⟨f, callers, ls, trail, calls, he, hsim⟩ := ih
    cases he
    obtain ⟨f', callers', ls', trail', rfl, hsim'⟩ := hsim.moves hl hs hr
    exact ⟨_, _, ls', trail', _, rfl, hsim'⟩

end ProgramFlow.Machine

namespace ProgramFlow.Interprocedural

open Machine

variable {p : Program} {σ : PointsTo.Sensitivity} {r : PointsTo.Result} {g : Supergraph}
  {al : Aliases} {t : Dataflow.Table Fact}

/-- By the final facts a store of an integer in the graph writes the value to a place that the load
may touch as well. The fact is the one before the load. -/
inductive MayLoad (p : Program) (r : PointsTo.Result) (g : Supergraph) (t : Dataflow.Table Fact)
    (load : Instr) (f : Fact) : Value → Prop
  | store {s j a b f'} (hs : s ∈ g.nodes) (hj : p.instr s = .ok j)
    (ha : heapAccess? load = some a) (hb : heapAccess? j = some b)
    (hrhs : storedVar? j = some b.value) (hint : p.isIntVar b.value = .ok true)
    (hsame : mayTouchSame r a b = true) (hf' : t.arriving.find? s = some f')
    (hmatch : indicesMayMatch load j f f' = true) : MayLoad p r g t load f (f'.get b.value)

/-- A load of an integer gets the least upper bound of what it may load. -/
theorem Solution.exists_isLUB_mayLoad {calls : List (StmtId × MethodId)}
    (h : Solution p g calls (some al) t) (hal : aliases p g r = .ok al) {n : StmtId}
    (hn : n ∈ g.nodes) {i : Instr} (hi : p.instr n = .ok i) {lhs : VarId}
    (hl : loadedVar? i = some lhs) (hint : p.isIntVar lhs = .ok true) :
    ∃ f y, t.arriving.find? n = some f ∧ t.leaving.find? n = some (f.set lhs y) ∧
      IsLUB {z | MayLoad p r g t i f z} y := by
  obtain ⟨f, y, hf, hy, hlub⟩ := fresh_of_solves h.built.layout h.closed
    (fits_of_aliases_eq_ok hal) h.solves al n i lhs rfl hn hi hl hint
  refine ⟨f, y, hf, hy, ?_⟩
  convert hlub using 1
  ext z
  constructor
  · rintro ⟨hs, hj, ha, hb, hrhs, hrint, hsame, hf', hmatch⟩
    have hpaired := (mem_storesFor_iff hal hn hi hl hint).2
      ⟨hs, _, _, _, hj, ha, hb, hrhs, hrint, hsame⟩
    exact ⟨_, hpaired, _, _, _, hf', hj, hrhs, hmatch, rfl⟩
  · rintro ⟨s, hpaired, f', j, rhs, hf', hj, hrhs, hmatch, rfl⟩
    obtain ⟨hs, j', a, b, hj', ha, hb, hrhs', hrint, hsame⟩ :=
      (mem_storesFor_iff hal hn hi hl hint).1 hpaired
    cases hj.symm.trans hj'
    cases hrhs.symm.trans hrhs'
    exact .store hs hj ha hb hrhs hrint hsame hf' hmatch

/-- Where a run loads an integer that nothing has written, the solution has the least upper bound of
what the stores that may touch the place write, also those that run later or never. It stands for
the zero that is read exactly if one of these values is zero or unknown, or two are different
constants. -/
theorem isLUB_of_loadsDefault (hp : p.Built) (hs : p.Scoped) (hr : PointsTo.analyze p σ = .ok r)
    (hg : p.supergraph r.entryMethods (r.calls.toList.map fun c => (c.site, c.callee)) = .ok g)
    (hal : aliases p g r = .ok al) (ht : (constantPropagation p (some al)).solve g = .ok t)
    {A : Arithmetic} {μ : Memory} {f : Frame} {callers : List Frame}
    (hrun : StartsFromZero A p μ (f :: callers)) {n : StmtId} {lhs : VarId}
    (hload : f.LoadsDefault p μ n lhs) :
    n ∈ g.nodes ∧ ∃ i x y, p.instr n = .ok i ∧ t.arriving.find? n = some x ∧
      t.leaving.find? n = some (x.set lhs y) ∧ IsLUB {z | MayLoad p r g t i x z} y ∧
      (y = .constant 0 ∨ y = .nac ↔ MayLoad p r g t i x (.constant 0) ∨
        MayLoad p r g t i x .nac ∨ ∃ a b, a ≠ b ∧ MayLoad p r g t i x (.constant a) ∧
          MayLoad p r g t i x (.constant b)) ∧
      (y = .undef ↔ ∀ z, MayLoad p r g t i x z → z = .undef) := by
  have hsol : Solution p g (r.calls.toList.map fun c => (c.site, c.callee)) (some al) t :=
    .of_solve_eq_ok hp hs hg (fits_of_aliases_eq_ok hal) ht
  obtain ⟨f₀, callers₀, ls, trail, calls, he, hsim⟩ := hrun.exists_simulates (σ := σ) hp.layout
  cases he
  -- The facts may miss the zeros, but the graph has every method that is entered.
  have hm : f.method ∈ g.methods :=
    PointsTo.mem_supergraph_of_derivable hp.layout hs hr hg hsim.top.reachable
  obtain ⟨hd, rfl, hi, hl, hint, -, -⟩ := hload
  have hn := hsol.point_mem_nodes hm hd f.position
  obtain ⟨x, y, hx, hy, hlub⟩ := hsol.exists_isLUB_mayLoad hal hn hi hl hint
  refine ⟨hn, _, x, y, hi, hx, hy, hlub, Value.eq_constant_or_nac_iff hlub, ?_⟩
  constructor
  · rintro rfl
    exact Value.isLUB_undef_iff.1 hlub
  · intro hall
    exact hlub.unique (Value.isLUB_undef_iff.2 hall)

end ProgramFlow.Interprocedural

namespace ProgramFlow.Program

open Interprocedural Machine

/-- A main method that reads a field before it writes 5 there, and a field that it never writes. -/
def counting : Program where
  classes := #[⟨"Main", none, false, [("main", ⟨0⟩)]⟩]
  fields := #[⟨"count", ⟨0⟩, .int, true⟩, ⟨"total", ⟨0⟩, .int, true⟩]
  methods := #[⟨"main", ⟨0⟩, true, false, [], none, [], 0, 5⟩]
  vars := #[⟨"x", .int, ⟨0⟩⟩, ⟨"five", .int, ⟨0⟩⟩, ⟨"y", .int, ⟨0⟩⟩]
  stmts := #[
    ⟨⟨0⟩, none, .entry⟩,
    ⟨⟨0⟩, some 0, .loadField ⟨0⟩ (.static ⟨0⟩)⟩,
    ⟨⟨0⟩, some 1, .literal ⟨1⟩ (.int 5)⟩,
    ⟨⟨0⟩, some 2, .storeField (.static ⟨0⟩) ⟨1⟩⟩,
    ⟨⟨0⟩, some 3, .loadField ⟨2⟩ (.static ⟨1⟩)⟩,
    ⟨⟨0⟩, some 4, .ret none⟩,
    ⟨⟨0⟩, none, .exit⟩]
  main := some ⟨0⟩

open MethodBuilder in
theorem counting_built : counting.Built := by
  have hfields := ((Builder.Assembled.empty.addClass "Main" none).addField ⟨0⟩ "count" .int
    true).addField ⟨0⟩ "total" .int true
  have hmain := hfields.finish ⟨0⟩ "main" true rfl
    ((((((((Edits.refl.addLocal "x" .int).addLocal "five" .int).addLocal "y" .int).push
      (.loadField ⟨0⟩ (.static ⟨0⟩))).push (.literal ⟨1⟩ (.int 5))).push
      (.storeField (.static ⟨0⟩) ⟨1⟩)).push (.loadField ⟨2⟩ (.static ⟨1⟩))).push (.ret none))
  exact ⟨_, hmain.setMain ⟨0⟩, by decide +kernel⟩

theorem counting_scoped : counting.Scoped := by decide

theorem counting_start :
    StartsFromZero default counting .empty [⟨⟨0⟩, 0, fun _ => none⟩] :=
  .start rfl rfl (fun _ hv => absurd rfl hv) fun _ => rfl

/-- The first statement reads the zero of the field. -/
theorem counting_loaded : StartsFromZero default counting .empty
    [⟨⟨0⟩, 1, Function.update (fun _ => none) ⟨0⟩ (some (.int 0))⟩] := by
  have hload := counting_start.step (a := .go (.done (some (.int 0)))) (fun _ _ _ => rfl)
    (.go rfl (by decide) rfl rfl rfl) (.go rfl rfl (.load rfl rfl rfl))
  exact hload

/-- No statement writes the second field, and its load gets no value. -/
theorem isLUB_of_loadsDefault_counting : ∃ r g al t x,
    PointsTo.analyze counting .insensitive = .ok r ∧
    counting.supergraph r.entryMethods (r.calls.toList.map fun c => (c.site, c.callee)) = .ok g ∧
    aliases counting g r = .ok al ∧
    (Interprocedural.constantPropagation counting (some al)).solve g = .ok t ∧
    t.leaving.find? ⟨4⟩ = some (x.set ⟨2⟩ .undef) ∧
    ∀ z, MayLoad counting r g t (.loadField ⟨2⟩ (.static ⟨1⟩)) x z → z = .undef := by
  have hrun : (do
      let r ← PointsTo.analyze counting .insensitive
      let g ← counting.supergraph r.entryMethods (r.calls.toList.map fun c => (c.site, c.callee))
      let al ← aliases counting g r
      let t ← (Interprocedural.constantPropagation counting (some al)).solve g
      return decide ((t.leaving.find? ⟨4⟩).map (·.get ⟨2⟩) = some .undef) : Outcome Bool) =
        .ok true := by decide +kernel
  obtain ⟨r, hr, hrun⟩ := Outcome.bind_eq_ok.1 hrun
  obtain ⟨g, hg, hrun⟩ := Outcome.bind_eq_ok.1 hrun
  obtain ⟨al, hal, hrun⟩ := Outcome.bind_eq_ok.1 hrun
  obtain ⟨t, ht, hrun⟩ := Outcome.bind_eq_ok.1 hrun
  have hundef : (t.leaving.find? ⟨4⟩).map (·.get ⟨2⟩) = some .undef :=
    of_decide_eq_true (Except.ok.inj hrun)
  have hliteral := counting_loaded.step (a := .go .trap)
    (fun _ _ h => absurd h (Frame.not_loadsDefault rfl rfl rfl))
    (.go rfl (by decide) rfl rfl rfl) (.go rfl rfl (.own rfl))
  have hstore := hliteral.step (a := .go (.done none))
    (fun _ _ h => absurd h (Frame.not_loadsDefault rfl rfl rfl))
    (.go rfl (by decide) rfl rfl rfl) (.go rfl rfl (.store rfl rfl))
  obtain ⟨-, i, x, y, hi, -, hy, -, -, hnone⟩ := isLUB_of_loadsDefault counting_built
    counting_scoped hr hg hal ht hstore (.intro rfl rfl rfl rfl rfl rfl rfl)
  cases hi
  have hy : t.leaving.find? ⟨4⟩ = some (x.set ⟨2⟩ y) := hy
  obtain rfl : y = .undef := by simpa [hy] using hundef
  exact ⟨r, g, al, t, x, hr, hg, hal, ht, hy, hnone.1 rfl⟩

/-- The load of the first field reads zero, and the solution has the 5 that is written later. -/
theorem counting_unaccounted : counting.Built ∧ counting.Scoped ∧
    (∀ s i, counting.instr s = .ok i → counting.IntOperands i ∧ IntIndex counting i) ∧
    ∃ r g al t f ρ y, PointsTo.analyze counting .insensitive = .ok r ∧
      counting.supergraph r.entryMethods (r.calls.toList.map fun c => (c.site, c.callee)) = .ok g ∧
      counting.IntCalls g ∧ aliases counting g r = .ok al ∧
      (Interprocedural.constantPropagation counting (some al)).solve g = .ok t ∧
      StartsFromZero default counting .empty [f] ∧ f.LoadsDefault counting .empty ⟨1⟩ ⟨0⟩ ∧
      StartsFromZero default counting .empty [⟨f.method, f.position + 1, ρ⟩] ∧
      ρ ⟨0⟩ = some (.int 0) ∧ t.leaving.find? ⟨1⟩ = some y ∧ y.get ⟨0⟩ = .constant 5 := by
  have hrun : (do
      let r ← PointsTo.analyze counting .insensitive
      let g ← counting.supergraph r.entryMethods (r.calls.toList.map fun c => (c.site, c.callee))
      let al ← aliases counting g r
      let t ← (Interprocedural.constantPropagation counting (some al)).solve g
      return decide (counting.IntCalls g ∧
        (t.leaving.find? ⟨1⟩).map (·.get ⟨0⟩) = some (.constant 5)) : Outcome Bool) =
        .ok true := by decide +kernel
  obtain ⟨r, hr, hrun⟩ := Outcome.bind_eq_ok.1 hrun
  obtain ⟨g, hg, hrun⟩ := Outcome.bind_eq_ok.1 hrun
  obtain ⟨al, hal, hrun⟩ := Outcome.bind_eq_ok.1 hrun
  obtain ⟨t, ht, hrun⟩ := Outcome.bind_eq_ok.1 hrun
  obtain ⟨hcalls, hfive⟩ := of_decide_eq_true (Except.ok.inj hrun)
  obtain ⟨y, hy, hfive⟩ := Option.map_eq_some_iff.1 hfive
  exact ⟨counting_built, counting_scoped, Program.forall_instr.2 (by decide), r, g, al, t, _, _, y,
    hr, hg, hcalls, hal, ht, counting_start, .intro rfl rfl rfl rfl rfl rfl rfl, counting_loaded,
    rfl, hy, hfive⟩

end ProgramFlow.Program
