import ProgramFlow.Proofs.Interprocedural.Soundness
/-!
A call without known callees. The link past the call forgets the result and no link brings one back,
so where the call returns the result has the values that other nodes carry there, and no value if
there are none. The analysis of one method takes the result of every call to be unknown.
-/
namespace ProgramFlow

/-- A least upper bound of facts is one for each variable. -/
theorem Fact.isLUB_get {S : Set Fact} {f : Fact} (h : IsLUB S f) (v : VarId) :
    IsLUB ((·.get v) '' S) (f.get v) := by
  constructor
  · rintro _ ⟨y, hy, rfl⟩
    exact Fact.get_mono v (h.1 hy)
  · intro x hx
    have hbound : f.set v x ∈ upperBounds S := by
      intro y hy
      apply Fact.le_iff.2
      intro w
      rw [Fact.get_set]
      split
      · next heq => exact heq ▸ hx ⟨y, hy, rfl⟩
      · exact Fact.get_mono w (h.1 hy)
    have hle := Fact.get_mono v (h.2 hbound)
    simpa [Fact.get_set] using hle

namespace Interprocedural

variable {p : Program} {g : Supergraph} {a : Option Aliases} {t : Dataflow.Table Fact}
  {entries : List MethodId} {calls : List (StmtId × MethodId)} {n s : StmtId} {call : Call}
  {v : VarId}

/-- A call returns into its method, behind the entry. -/
theorem target_not_mem_boundaryNodes (hp : p.Layout) (hg : p.supergraph entries calls = .ok g)
    {l : Link} (hl : l ∈ g.links) (hkind : l.kind = .callToReturn) :
    l.target ∉ Problem.boundaryNodes g := by
  intro hb
  obtain ⟨m, -, c', hc', hentry⟩ := Problem.mem_boundaryNodes.1 hb
  obtain ⟨hmem, -⟩ := Supergraph.of_graph?_eq_some hc'
  have hclosed := hp.supergraph_closed hg
  cases Program.asks_of_supergraph hg hl with
  | @callToReturn c n s call hc hn hi hs =>
    have hcf := (Program.supergraph_eq_ok hg).graphs c hc
    obtain ⟨-, -, -, -, -, -, hshape⟩ := hp.of_controlFlow hcf
    obtain rfl : c'.entry = s := hentry
    cases hclosed.graph_unique hp hc hmem (hshape.succs hs) (hclosed.entry_mem hmem)
    exact hp.entry_not_mem_succs hcf n hs
  | normal | call | ret => cases hkind

/-- All links out of a call without callees lead past it. -/
theorem kind_of_calleesOf_eq_nil (hp : p.Layout) (hg : p.supergraph entries calls = .ok g)
    (hn : n ∈ g.nodes) (hi : p.instr n = .ok (.invoke call)) (hnone : g.calleesOf n = []) {l : Link}
    (hl : l ∈ g.links) (hsource : l.source = n) : l.kind = .callToReturn := by
  subst hsource
  have hgiven : Program.givenCallees calls l.source = [] :=
    ((Program.supergraph_linked hg).callees _ hn call hi).symm.trans hnone
  cases Program.asks_of_supergraph hg hl with
  | normal _ _ hi' hcall =>
    cases hi.symm.trans hi'
    cases hcall
  | callToReturn => rfl
  | call _ _ _ hcallee =>
    have hmem := Program.mem_givenCallees.2 hcallee
    rw [hgiven] at hmem
    exact (List.not_mem_nil hmem).elim
  | ret _ _ _ _ hd => cases hi.symm.trans (Program.instr_eq_ok.2 ⟨_, hp.exit hd, rfl⟩)

/-- The values of a variable that the links into a node carry from nodes other than one. -/
def carriedBeside (p : Program) (g : Supergraph) (t : Dataflow.Table Fact) (n s : StmtId)
    (v : VarId) : Set Value :=
  {x | ∃ l ∈ g.inLinks s, l.source ≠ n ∧ ∃ z y, t.leaving.find? l.source = some z ∧
    transferLink p l z = .ok y ∧ y.get v = x}

variable {aware : Bool} {r : Option PointsTo.Result}

/-- Where a call without callees returns, the result has the values that other nodes carry there. -/
theorem isLUB_get_of_calleesOf_eq_nil (hp : p.Built) (hv : p.Declared)
    (hg : p.supergraph entries calls = .ok g) (ha : aliasesFor p g aware r = .ok a)
    (ht : (constantPropagation p a).solve g = .ok t) (hn : n ∈ g.nodes)
    (hi : p.instr n = .ok (.invoke call)) (hlhs : call.lhs = some v) (hnone : g.calleesOf n = [])
    (hs : s ∈ g.succs n) :
    ∃ f, t.arriving.find? s = some f ∧ IsLUB (carriedBeside p g t n s v) (f.get v) := by
  have hclosed := hp.layout.supergraph_closed hg
  have hsolves := solves_of_solve_eq_ok hp.layout hv hclosed
    (fun al => fits_of_aliasesFor ha) ht
  have hkind : ∀ l ∈ g.links, l.source = n → l.kind = .callToReturn := fun l =>
    kind_of_calleesOf_eq_nil hp.layout hg hn hi hnone
  have hfree : s ∉ Problem.boundaryNodes g := by
    obtain ⟨l, hl, rfl⟩ := List.mem_map.1 hs
    obtain ⟨hl, hsource⟩ := hclosed.indexed.mem_outLinks.1 hl
    exact target_not_mem_boundaryNodes hp.layout hg hl (hkind l hl hsource)
  obtain ⟨f, hf, hlub⟩ := hsolves.arriving s (hclosed.succs hs) hfree
  refine ⟨f, hf, ?_⟩
  have hget := Fact.isLUB_get hlub v
  constructor
  · rintro x ⟨l, hl, -, z, y, hz, hy, rfl⟩
    exact hget.1 ⟨y, ⟨l, hl, z, hz, hy⟩, rfl⟩
  · intro x hx
    apply hget.2
    rintro _ ⟨y, ⟨l, hl, z, hz, hy⟩, rfl⟩
    by_cases hsource : l.source = n
    · -- The link past the call carries no value of the result.
      have hpast : transferLink p l z = .ok (z.set v .undef) := by
        simp [transferLink, hkind l (Supergraph.mem_links_of_mem_inLinks hl) hsource, hsource,
          passCall, hi, Instr.assigned?, hlhs]
      cases hpast.symm.trans hy
      change (z.set v .undef).get v ≤ x
      rw [Fact.get_set, if_pos rfl]
      exact bot_le
    · exact hx ⟨l, hl, hsource, z, y, hz, hy, rfl⟩

end Interprocedural

namespace Program

open Interprocedural

/-- A method that returns 5, or what it gets from a method that does not exist. -/
def inquiring : Program where
  classes := #[⟨"Main", none, false, [("run", ⟨0⟩)]⟩]
  fields := #[]
  methods := #[⟨"run", ⟨0⟩, true, false, [⟨0⟩], none, [⟨1⟩], 0, 5⟩]
  vars := #[⟨"n", .int, ⟨0⟩⟩, ⟨"r", .int, ⟨0⟩⟩]
  stmts := #[
    ⟨⟨0⟩, none, .entry⟩,
    ⟨⟨0⟩, some 0, .branch ⟨.lt, ⟨0⟩, ⟨0⟩⟩ 3⟩,
    ⟨⟨0⟩, some 1, .literal ⟨1⟩ (.int 5)⟩,
    ⟨⟨0⟩, some 2, .goto 4⟩,
    ⟨⟨0⟩, some 3, .invoke ⟨some ⟨1⟩, .static, ⟨⟨0⟩, "input"⟩, none, []⟩⟩,
    ⟨⟨0⟩, some 4, .ret (some ⟨1⟩)⟩,
    ⟨⟨0⟩, none, .exit⟩]
  main := some ⟨0⟩

open MethodBuilder in
theorem inquiring_built : inquiring.Built := by
  have hrun := (Builder.Assembled.empty.addClass "Main" none).finish ⟨0⟩ "run" true rfl
    (((((((Edits.refl.addParam "n" .int).addLocal "r" .int).push
      (.branch ⟨.lt, ⟨0⟩, ⟨0⟩⟩ 3)).push (.literal ⟨1⟩ (.int 5))).push (.goto 4)).push
      (.invoke ⟨some ⟨1⟩, .static, ⟨⟨0⟩, "input"⟩, none, []⟩)).push (.ret (some ⟨1⟩)))
  exact ⟨_, hrun.setMain ⟨0⟩, by decide +kernel⟩

theorem inquiring_scoped : inquiring.Scoped := by decide

/-- The call returns where the other branch carries 5. -/
theorem isLUB_get_inquiring : ∃ g t f, inquiring.supergraph [⟨0⟩] [] = .ok g ∧
    (Interprocedural.constantPropagation inquiring none).solve g = .ok t ∧
    t.arriving.find? ⟨5⟩ = some f ∧
    IsLUB (carriedBeside inquiring g t ⟨4⟩ ⟨5⟩ ⟨1⟩) (f.get ⟨1⟩) := by
  have hrun : (do
      let g ← inquiring.supergraph [⟨0⟩] []
      let _ ← (Interprocedural.constantPropagation inquiring none).solve g
      return decide (⟨4⟩ ∈ g.nodes ∧ g.calleesOf ⟨4⟩ = [] ∧ ⟨5⟩ ∈ g.succs ⟨4⟩) : Outcome Bool) =
        .ok true := by decide +kernel
  obtain ⟨g, hg, hrun⟩ := Outcome.bind_eq_ok.1 hrun
  obtain ⟨t, ht, hrun⟩ := Outcome.bind_eq_ok.1 hrun
  obtain ⟨hn, hnone, hs⟩ := of_decide_eq_true (Except.ok.inj hrun)
  have ha : aliasesFor inquiring g false none = .ok none := rfl
  obtain ⟨f, hf, hlub⟩ := isLUB_get_of_calleesOf_eq_nil inquiring_built inquiring_scoped.declared hg
    ha ht hn rfl rfl hnone hs
  exact ⟨g, t, f, hg, ht, hf, hlub⟩

/-- The pointer analysis finds no method for the call, and where it returns the result counts as the
constant of the other branch. The analysis of the method alone says that it is unknown. -/
theorem inquiring_constant : inquiring.Built ∧ inquiring.Declared ∧ ∃ r g t f c u f',
    PointsTo.analyze inquiring .insensitive = .ok r ∧
    inquiring.supergraph r.entryMethods (r.calls.toList.map fun c => (c.site, c.callee)) = .ok g ∧
    ⟨4⟩ ∈ g.nodes ∧ g.calleesOf ⟨4⟩ = [] ∧ g.succs ⟨4⟩ = [⟨5⟩] ∧
    (Interprocedural.constantPropagation inquiring none).solve g = .ok t ∧
    t.arriving.find? ⟨5⟩ = some f ∧ f.get ⟨1⟩ = .constant 5 ∧
    inquiring.controlFlow ⟨0⟩ = .ok c ∧
    inquiring.constantPropagation.solve c .workList = .ok u ∧
    u.arriving.find? ⟨5⟩ = some f' ∧ f'.get ⟨1⟩ = .nac := by
  have hrun : (do
      let r ← PointsTo.analyze inquiring .insensitive
      let g ← inquiring.supergraph r.entryMethods (r.calls.toList.map fun c => (c.site, c.callee))
      let t ← (Interprocedural.constantPropagation inquiring none).solve g
      let c ← inquiring.controlFlow ⟨0⟩
      let u ← inquiring.constantPropagation.solve c .workList
      return decide ((⟨4⟩ ∈ g.nodes ∧ g.calleesOf ⟨4⟩ = [] ∧ g.succs ⟨4⟩ = [⟨5⟩]) ∧
        (t.arriving.find? ⟨5⟩).map (·.get ⟨1⟩) = some (.constant 5) ∧
        (u.arriving.find? ⟨5⟩).map (·.get ⟨1⟩) = some .nac) : Outcome Bool) = .ok true := by
    decide +kernel
  obtain ⟨r, hr, hrun⟩ := Outcome.bind_eq_ok.1 hrun
  obtain ⟨g, hg, hrun⟩ := Outcome.bind_eq_ok.1 hrun
  obtain ⟨t, ht, hrun⟩ := Outcome.bind_eq_ok.1 hrun
  obtain ⟨c, hc, hrun⟩ := Outcome.bind_eq_ok.1 hrun
  obtain ⟨u, hu, hrun⟩ := Outcome.bind_eq_ok.1 hrun
  obtain ⟨⟨hn, hnone, hs⟩, hconst, hnac⟩ := of_decide_eq_true (Except.ok.inj hrun)
  obtain ⟨f, hf, hconst⟩ := Option.map_eq_some_iff.1 hconst
  obtain ⟨f', hf', hnac⟩ := Option.map_eq_some_iff.1 hnac
  exact ⟨inquiring_built, inquiring_scoped.declared, r, g, t, f, c, u, f', hr, hg, hn, hnone, hs, ht,
    hf, hconst, hc, hu, hf', hnac⟩

end Program

end ProgramFlow
