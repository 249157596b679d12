import ProgramFlow.Proofs.Interprocedural.Accesses
import ProgramFlow.Proofs.Interprocedural.Soundness
import ProgramFlow.Proofs.PointsTo.Entries
import ProgramFlow.Proofs.PointsTo.Tracing
/-!
Constant propagation with aliases misses no store. In a run from the main method whose integer
loads read what stores of integers have written, the facts describe every activation, and a load
reads from a store that it is paired with.
-/
namespace ProgramFlow.Interprocedural

open Machine
open PointsTo (Balanced Derivable Sensitivity Simulates Location)

variable {p : Program} {σ : Sensitivity} {r : PointsTo.Result} {g : Supergraph} {al : Aliases}
  {t : Dataflow.Table Fact}

/-- What the analyses know of a cell: it has been written by a store of the graph that touches the
place, and an integer in it is one that the fact before the store stands for. -/
structure Written (p : Program) (r : PointsTo.Result) (g : Supergraph) (t : Dataflow.Table Fact)
    (μ : Memory) (x : Execution.Place) (c : Cell) : Prop where
  node : c.writer ∈ g.nodes
  store : ∃ f j rhs, t.arriving.find? c.writer = some f ∧ p.instr c.writer = .ok j ∧
    storedVar? j = some rhs ∧ Touches r μ.store f j x ∧
    (p.isIntVar rhs = .ok true → ∀ z, c.value = some z → (f.get rhs).Covers z)

theorem Written.grow {μ μ' : Memory} {x : Execution.Place} {c : Cell} (h : Written p r g t μ x c)
    (hle : μ.objects <+: μ'.objects) : Written p r g t μ' x c := by
  obtain ⟨f, j, rhs, hf, hj, hrhs, htouch, hcover⟩ := h.store
  exact ⟨h.node, f, j, rhs, hf, hj, hrhs, htouch.grow hle, hcover⟩

/-- The analysis knows that the load reads the cell: the store that has written it is paired with
the load, the indices allow it by the final facts, and the fact after the load stands for it. -/
structure Foreseen (p : Program) (al : Aliases) (t : Dataflow.Table Fact) (n : StmtId) (i : Instr)
    (lhs : VarId) (c : Cell) : Prop where
  paired : c.writer ∈ al.storesFor n
  indices : ∃ f f' j, t.arriving.find? n = some f ∧ t.arriving.find? c.writer = some f' ∧
    p.instr c.writer = .ok j ∧ indicesMayMatch i j f f' = true
  value : ∃ y, t.leaving.find? n = some y ∧ ∀ z, c.value = some z → (y.get lhs).Covers z

/-- The points-to analysis of a program, and the solution of constant propagation that uses it. -/
structure Aware (p : Program) (σ : Sensitivity) (r : PointsTo.Result) (g : Supergraph)
    (al : Aliases) (t : Dataflow.Table Fact) : Prop where
  balanced : Balanced p σ (Derivable p σ) r.state ∅
  finished : r.state.pending.toList = []
  solution : Solution p g (r.calls.toList.map fun c => (c.site, c.callee)) (some al) t
  aliases : aliases p g r = .ok al

/-- What the steps of a run with a memory keep. -/
structure Follows (p : Program) (σ : Sensitivity) (r : PointsTo.Result) (g : Supergraph)
    (t : Dataflow.Table Fact) (μ : Memory) (f : Frame) (fs : List Frame) : Prop where
  tracks : Tracks p g t f fs
  written : ∀ {x c}, μ.cells x = some c → Written p r g t μ x c
  simulates : ∃ ls trail calls, Simulates p σ ls trail (image p μ f fs) calls

namespace Follows

variable {A : Arithmetic} {m : MethodId} {d : MethodDecl} {k : Nat} {ρ : Env} {μ μ' : Memory}
  {f : Frame} {fs : List Frame}

section Top

variable (ha : Aware p σ r g al t) (h : Follows p σ r g t μ ⟨m, k, ρ⟩ fs)
  (hd : p.method m = .ok d)
include ha h

theorem covered {v : VarId} {n : Nat} (hn : ρ.addresses v = some n) :
    ∃ o ∈ r.pointsTo v, r.objectAt μ.store n = some o := by
  obtain ⟨ls, trail, calls, hsim⟩ := h.simulates
  exact hsim.local_covered ha.balanced ha.finished (.head _) hn

variable (hk : k < d.length) {i : Instr} (hindex : IntIndex p i) {x : Execution.Place}
  (hx : ρ.place? i = some x)
include hd hk hindex hx

/-- The analyses know what a statement touches. -/
theorem touches : d.stmtAt k ∈ g.nodes ∧ ∃ f, t.arriving.find? (d.stmtAt k) = some f ∧
    p.Describes f ρ ∧ Touches r μ.store f i x := by
  obtain ⟨hm, d', hd', f, hf, hdesc⟩ := h.tracks.top
  cases hd.symm.trans hd'
  rw [MethodDecl.point_of_lt hk] at hf
  have hn := ha.solution.mem_nodes hm hd (MethodDecl.stmtAt_mem_nodes hk)
  exact ⟨hn, f, hf, hdesc, .of_place? (fun hv => h.covered ha hv) hdesc hindex hx⟩

/-- A load reads from a store that it is paired with. -/
theorem foreseen (hi : p.instr (d.stmtAt k) = .ok i) {lhs : VarId} (hl : loadedVar? i = some lhs)
    (hint : p.isIntVar lhs = .ok true) {c : Cell} (hc : μ.cells x = some c) {j : Instr}
    (hj : p.instr c.writer = .ok j) {rhs : VarId} (hrhs : storedVar? j = some rhs)
    (hrint : p.isIntVar rhs = .ok true) :
    Foreseen p al t (d.stmtAt k) i lhs c := by
  obtain ⟨hn, f, hf, -, hload⟩ := h.touches ha hd hk hindex hx
  obtain ⟨hnode, f', j', rhs', hf', hj', hrhs', hstore, hcover⟩ := h.written hc
  cases hj.symm.trans hj'
  cases hrhs.symm.trans hrhs'
  obtain ⟨hsame, hmatch⟩ := hload.same hstore
  have hpaired :=
    mem_storesFor_of_mayTouchSame ha.aliases hn hnode hi hj hl hrhs hint hrint hsame
  obtain ⟨f₀, y, hf₀, hy, hlub, -⟩ := fresh_of_solves ha.solution.built.layout ha.solution.closed
    (fits_of_aliases_eq_ok ha.aliases) ha.solution.solves al _ i lhs rfl hn hi hl hint
  cases hf.symm.trans hf₀
  have hle : f'.get rhs ≤ y := hlub ⟨_, hpaired, f', j, rhs, hf', hj, hrhs, hmatch, rfl⟩
  refine ⟨hpaired, ⟨f, f', j, hf, hf', hj, hmatch⟩, _, hy, ?_⟩
  intro z hz
  rw [Fact.get_set, if_pos rfl]
  exact (hcover hrint z hz).mono hle

end Top

/-- The cells are known after a statement as well. -/
theorem written_of_answers (ha : Aware p σ r g al t) (h : Follows p σ r g t μ ⟨m, k, ρ⟩ fs)
    (hd : p.method m = .ok d) (hk : k < d.length) {i : Instr} (hi : p.instr (d.stmtAt k) = .ok i)
    (hindex : IntIndex p i) {answer : Answer} (hans : Answers (d.stmtAt k) μ ρ i answer μ')
    {x : Execution.Place} {c : Cell} (hc : μ'.cells x = some c) : Written p r g t μ' x c := by
  cases hans with
  | new => exact (h.written hc).grow (List.prefix_append ..)
  | @store _ rhs _ hrhs hx =>
    have hknown : Written p r g t μ x c := by
      rcases Memory.cells_write_eq_some hc with ⟨rfl, rfl⟩ | hc
      · obtain ⟨hn, f, hf, hdesc, htouch⟩ := h.touches ha hd hk hindex hx
        exact ⟨hn, f, i, rhs, hf, hi, hrhs, htouch, fun hv z hz => hdesc rhs z hv hz⟩
      · exact h.written hc
    exact hknown.grow List.prefix_rfl
  | _ => exact h.written hc

end Follows

/-- The graph lists the calls that the points-to analysis follows. -/
theorem Aware.mem_calleesOf (ha : Aware p σ r g al t) {ls : List Location} {trail : PointsTo.Trail}
    {c : Execution.Config} {calls : List (StmtId × MethodId)}
    (hsim : Simulates p σ ls trail c calls) {site : StmtId} {callee : MethodId}
    (hmem : (site, callee) ∈ calls) (hn : site ∈ g.nodes) {call : Call}
    (hi : p.instr site = .ok (.invoke call)) : callee ∈ g.calleesOf site := by
  rw [ha.solution.linked.callees site hn call hi, Program.mem_givenCallees]
  obtain ⟨hcall, -⟩ := (hsim.covers ha.balanced ha.finished).calls _ hmem
  exact List.mem_map.2 ⟨_, SortedSet.mem_toList.2 hcall, rfl⟩

theorem Aware.follows_start (ha : Aware p σ r g al t) {m : MethodId} {d : MethodDecl} {ρ : Env}
    (hm : p.main = some m) (hentry : m ∈ g.entryMethods) (hd : p.method m = .ok d)
    (hρ : Starts p d ρ) (hnull : ∀ v, ρ.addresses v = none) :
    Follows p σ r g t .empty ⟨m, 0, ρ⟩ [] where
  tracks := ha.solution.tracks_start hentry hd hρ
  written := nofun
  simulates := by
    obtain ⟨ls, trail, hsim⟩ :=
      PointsTo.exists_simulates_start (σ := σ) ha.solution.built.layout hm hd hnull
    exact ⟨ls, trail, [], hsim⟩

section Steps

variable (ha : Aware p σ r g al t) (hops : ∀ s i, p.instr s = .ok i → p.IntOperands i)
  (hindices : ∀ s i, p.instr s = .ok i → IntIndex p i) (hcalls : p.IntCalls g)
  {A : Arithmetic} {μ μ' : Memory} {f : Frame} {fs fs' : List Frame}
include ha hops hindices hcalls

theorem Follows.moves (h : Follows p σ r g t μ f fs) (hfed : f.Fed p μ) {a : Action}
    (hs : Moves A p (f :: fs) a fs') (hr : Responds p μ (f :: fs) a μ') :
    ∃ f' callers, fs' = f' :: callers ∧ Follows p σ r g t μ' f' callers := by
  have hl := ha.solution.built.layout
  obtain ⟨ls, trail, calls, hsim⟩ := h.simulates
  obtain ⟨f', callers, ls', trail', rfl, hsim'⟩ := hsim.moves hl hs hr
  suffices hkept : Tracks p g t f' callers ∧
      ∀ {x c}, μ'.cells x = some c → Written p r g t μ' x c from
    ⟨f', callers, rfl, hkept.1, hkept.2, _, _, _, hsim'⟩
  cases hs with
  | @go m d k ρ i answer z _ hd hk hi hstays hz =>
    cases hr with
    | go hd' hi' hans =>
      cases hd.symm.trans hd'
      cases hi.symm.trans hi'
      have hindex := hindices _ _ hi
      refine ⟨(h.tracks.go ha.solution hd hk hi hstays (hops _ _ hi) hz ?_).2,
        h.written_of_answers ha hd hk hi hindex hans⟩
      -- A load yields what a store of an integer has written.
      intro al' lhs y he hlhs hint hy u hu
      cases he
      obtain ⟨x, hx, hread⟩ := hans.reads hlhs hz
      have hpoint : p.instr (d.point k) = .ok i := MethodDecl.point_of_lt hk ▸ hi
      obtain ⟨c, j, rhs, hc, hj, hrhs, hrint⟩ := hfed d i lhs x hd hpoint hlhs hint hx
      obtain ⟨y', hy', hcover⟩ :=
        (h.foreseen ha hd hk hindex hx hi hlhs hint hc hj hrhs hrint).value
      cases hy.symm.trans hy'
      exact hcover u (hread.eq_value hc ▸ hu)
  | @call m d k ρ call callee d' this _ hd hk hi hd' =>
    cases hr with
    | call =>
      have hn := ha.solution.mem_nodes h.tracks.top.included hd (MethodDecl.stmtAt_mem_nodes hk)
      have hlisted := ha.mem_calleesOf hsim' (.head _) hn hi
      exact ⟨h.tracks.call ha.solution hd hk hi hlisted hd' (hcalls.intCall hi hlisted hd') this,
        h.written⟩
  | leave hx hd hk hi =>
    cases hr with
    | leave => exact ⟨h.tracks.leave ha.solution hd hk hi hx, h.written⟩

theorem Aware.exists_follows (hentry : ∀ m, p.main = some m → m ∈ g.entryMethods)
    (h : Executes A p μ fs) : ∃ f callers, fs = f :: callers ∧ Follows p σ r g t μ f callers := by
  induction h with
  | start hm hd hρ hnull => exact ⟨_, _, rfl, ha.follows_start hm (hentry _ hm) hd hρ hnull⟩
  | step _ hfed hs hr ih =>
    obtain ⟨f, callers, he, h⟩ := ih
    cases he
    exact h.moves ha hops hindices hcalls hfed hs hr

end Steps

/-- With the aliases of a points-to analysis constant propagation is sound for the runs from the
main method in which every load of an integer reads what a store of an integer has written. The fact
before the statement of each activation stands for what its integer variables hold. The store that
a load reads from is paired with it, the final facts allow their indices, and the fact after the
load stands for what it reads. -/
theorem describes_executed (hp : p.Built) (hs : p.Scoped)
    (hops : ∀ s i, p.instr s = .ok i → p.IntOperands i)
    (hindices : ∀ s i, p.instr s = .ok i → IntIndex p i) (hr : PointsTo.analyze p σ = .ok r)
    (hg : p.supergraph r.entryMethods (r.calls.toList.map fun c => (c.site, c.callee)) = .ok g)
    (hcalls : p.IntCalls g) (hal : aliases p g r = .ok al)
    (ht : (constantPropagation p (some al)).solve g = .ok t) {A : Arithmetic} {μ : Memory}
    {fs : List Frame} (hrun : Executes A p μ fs) :
    (∀ f ∈ fs, ∃ d, p.method f.method = .ok d ∧ p.DescribesAt t d f) ∧
    ∀ f callers, fs = f :: callers → f.Fed p μ → ∀ d i lhs x, p.method f.method = .ok d →
      p.instr (d.point f.position) = .ok i → loadedVar? i = some lhs →
      p.isIntVar lhs = .ok true → f.locals.place? i = some x →
      ∃ c, μ.cells x = some c ∧ Foreseen p al t (d.point f.position) i lhs c := by
  obtain ⟨hbal, hdone⟩ := PointsTo.analyze_ensures hp.layout hs hr
  have ha : Aware p σ r g al t :=
    ⟨hbal, hdone, .of_solve_eq_ok hp hs hg (fits_of_aliases_eq_ok hal) ht, hal⟩
  have hentry : ∀ m, p.main = some m → m ∈ g.entryMethods := by
    intro m hm
    rw [Program.entryMethods_of_supergraph hg]
    exact PointsTo.main_mem_entryMethods hm hr
  obtain ⟨f, callers, rfl, h⟩ := ha.exists_follows hops hindices hcalls hentry hrun
  refine ⟨h.tracks.described, ?_⟩
  intro f₀ callers₀ he hfed d i lhs x hd hi hlhs hint hx
  cases he
  obtain ⟨c, j, rhs, hc, hj, hrhs, hrint⟩ := hfed d i lhs x hd hi hlhs hint hx
  have hk : f.position < d.length := by
    by_contra hk
    rw [MethodDecl.point_of_le (Nat.not_lt.1 hk)] at hi
    cases hi.symm.trans (Program.instr_eq_ok.2 ⟨_, hp.layout.exit hd, rfl⟩)
    cases hlhs
  rw [MethodDecl.point_of_lt hk] at hi ⊢
  exact ⟨c, hc, h.foreseen ha hd hk (hindices _ _ hi) hx hi hlhs hint hc hj hrhs hrint⟩

/-- Main writes a one into its cell, and the method that it calls on the cell reads it. -/
theorem describes_executed_sample : ∃ r g al t x,
    PointsTo.analyze Program.sample (.object 1) = .ok r ∧
    Program.sample.supergraph r.entryMethods (r.calls.toList.map fun c => (c.site, c.callee)) =
      .ok g ∧
    aliases Program.sample g r = .ok al ∧
    (constantPropagation Program.sample (some al)).solve g = .ok t ∧
    ⟨11⟩ ∈ al.storesFor ⟨1⟩ ∧ t.arriving.find? ⟨2⟩ = some x ∧ (x.get ⟨1⟩).Covers (.int 1) := by
  have hrun : (do
      let r ← PointsTo.analyze Program.sample (.object 1)
      let g ← Program.sample.supergraph r.entryMethods
        (r.calls.toList.map fun c => (c.site, c.callee))
      let al ← aliases Program.sample g r
      let _ ← (constantPropagation Program.sample (some al)).solve g
      return decide (Program.sample.IntCalls g) : Outcome Bool) = .ok true := by decide +kernel
  obtain ⟨r, hr, hrun⟩ := Outcome.bind_eq_ok.1 hrun
  obtain ⟨g, hg, hrun⟩ := Outcome.bind_eq_ok.1 hrun
  obtain ⟨al, hal, hrun⟩ := Outcome.bind_eq_ok.1 hrun
  obtain ⟨t, ht, hrun⟩ := Outcome.bind_eq_ok.1 hrun
  have hcalls : Program.sample.IntCalls g := of_decide_eq_true (Except.ok.inj hrun)
  have hops : ∀ s i, Program.sample.instr s = .ok i → Program.sample.IntOperands i :=
    Program.forall_instr.2 (by decide)
  have hindices : ∀ s i, Program.sample.instr s = .ok i → IntIndex Program.sample i :=
    Program.forall_instr.2 (by decide)
  have hmain : Executes default Program.sample .empty [⟨⟨2⟩, 0, fun _ => none⟩] :=
    .start rfl rfl (fun _ hv => absurd rfl hv) fun _ => rfl
  have hnew := hmain.step (a := .go (.done (some (.reference (some 0)))))
    (.of_not_load rfl rfl rfl) (.go rfl (by decide) rfl rfl rfl) (.go rfl rfl .new)
  have hliteral := hnew.step (a := .go .trap)
    (.of_not_load rfl rfl rfl) (.go rfl (by decide) rfl rfl rfl) (.go rfl rfl (.own rfl))
  have hstore := hliteral.step (a := .go (.done none))
    (.of_not_load rfl rfl rfl) (.go rfl (by decide) rfl rfl rfl) (.go rfl rfl (.store rfl rfl))
  have hcall := hstore.step (a := .call _ _ (some (.reference (some 0))))
    (.of_not_load rfl rfl rfl) (.call rfl (by decide) rfl rfl)
    (.call rfl (.instance (by decide) rfl rfl rfl rfl))
  have hready := hcall.step (a := .go (.done (some (.int 1))))
    (.of_load rfl rfl rfl rfl rfl rfl rfl) (.go rfl (by decide) rfl rfl rfl)
    (.go rfl rfl (.load rfl rfl rfl))
  obtain ⟨-, hforeseen⟩ :=
    describes_executed Program.sample_built Program.sample_scoped hops hindices hr hg hcalls hal ht
      hcall
  obtain ⟨c, hc, hforeseen⟩ :=
    hforeseen _ _ rfl (.of_load rfl rfl rfl rfl rfl rfl rfl) _ _ _ _ rfl rfl rfl rfl rfl
  cases hc
  obtain ⟨hdesc, -⟩ :=
    describes_executed Program.sample_built Program.sample_scoped hops hindices hr hg hcalls hal ht
      hready
  obtain ⟨d, hd, x, hx, hdesc⟩ := hdesc _ (.head _)
  cases hd
  exact ⟨r, g, al, t, x, hr, hg, hal, ht, hforeseen.paired, hx, hdesc ⟨1⟩ _ rfl rfl⟩

end ProgramFlow.Interprocedural
