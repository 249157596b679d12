import ProgramFlow.Proofs.Program.Evaluation
import ProgramFlow.Proofs.Program.Validation
/-!
The shape of control-flow graphs. The graph of a method of a built program has the ways of control
for its edges and nothing else, and a builder whose methods are in order is not refused for them.
-/
namespace ProgramFlow

open Machine (Arithmetic Env)

/-- The graph of a method: its statements in order, joined by the ways of control. -/
structure ControlFlowGraph.Shaped (g : ControlFlowGraph) (p : Program) (m : MethodId)
    (d : MethodDecl) : Prop where
  method : g.method = m
  entry : g.entry = d.entry
  exit : g.exit = d.exit
  nodes : g.nodes = d.entry :: d.body ++ [d.exit]
  nodup : g.nodes.Nodup
  outEdges_entry : g.outEdges d.entry = [⟨.entry, d.entry, d.point 0⟩]
  outEdges_stmtAt : ∀ k < d.length, ∃ i, p.stmt (d.stmtAt k) = .ok ⟨m, some k, i⟩ ∧
    g.outEdges (d.stmtAt k) = (d.ways k i).map fun w => ⟨w.1, d.stmtAt k, d.point w.2⟩
  /-- What a machine does next, it does along an edge. -/
  outEdges_next : ∀ k < d.length, ∀ i, p.instr (d.stmtAt k) = .ok i → ∀ (A : Arithmetic) (ρ : Env),
    ⟨A.exitKind d ρ k i, d.stmtAt k, d.point (A.next d ρ k i)⟩ ∈ g.outEdges (d.stmtAt k)
  outEdges_exit : g.outEdges d.exit = []
  outEdges_ne_nil : ∀ n ∈ g.nodes, n ≠ d.exit → g.outEdges n ≠ []
  inEdges_entry : g.inEdges d.entry = []
  endpoints : ∀ e ∈ g.edges, e.source ∈ g.nodes ∧ e.target ∈ g.nodes
  count : ∀ e, (g.outEdges e.source).count e = (g.inEdges e.target).count e

namespace Program

variable {p : Program} {m : MethodId} {d : MethodDecl}

theorem Layout.shaped (h : p.Layout) (hd : p.method m = .ok d) :
    ∃ g, p.controlFlow m = .ok g ∧ g.Shaped p m d := by
  obtain ⟨g, hg, hm, hentry, hexit, hnodes, hclosed⟩ := h.controlFlow hd
  refine ⟨g, hg, ?_⟩
  exact {
    method := hm
    entry := hentry
    exit := hexit
    nodes := hnodes
    nodup := hnodes ▸ d.nodup_nodes
    outEdges_entry := outEdges_entry hg hd
    outEdges_stmtAt := by
      intro k hk
      obtain ⟨i, hi, -⟩ := h.body hd hk
      exact ⟨i, hi, outEdges_stmtAt hg hd hk (instr_eq_ok.2 ⟨_, hi, rfl⟩)⟩
    outEdges_next := fun k hk i hi A ρ => mem_outEdges_next hg hd hk hi A ρ
    outEdges_exit := outEdges_exit hg hd
    outEdges_ne_nil := fun n hn hne => h.outEdges_ne_nil hg hd (hnodes ▸ hn) hne
    inEdges_entry := by
      refine List.eq_nil_iff_forall_not_mem.2 fun e he => h.entry_not_mem_succs hg e.source ?_
      obtain ⟨he, htarget⟩ := hclosed.indexed.mem_inEdges.1 he
      rw [hentry, ← htarget]
      exact hclosed.indexed.target_mem_succs he
    endpoints := hclosed.edges
    count := hclosed.indexed.count_outEdges }

end Program

namespace Builder

/-- The methods of a built program have the graphs that their instructions describe, and a builder
is refused as an invalid program exactly for a method that is unfinished, branches on no comparison
or jumps out of its body. -/
theorem Assembled.shapes {b : Builder} (hb : b.Assembled) :
    (∀ p, b.build = .ok p → ∀ m d, p.method m = .ok d →
      ∃ g, p.controlFlow m = .ok g ∧ g.Shaped p m d) ∧
    ((∃ draft ∈ b.methods.toList, b.Faulty draft) ↔
      ∃ fault, b.build = .error (.invalidProgram fault)) := by
  refine ⟨fun p hp m d hd => ?_, hb.exists_faulty_iff⟩
  have hbuilt : p.Built := ⟨b, hb, hp⟩
  exact hbuilt.layout.shaped hd

def route : MethodDecl := ⟨"route", ⟨0⟩, true, false, [⟨1⟩], none, [], 2, 4⟩

/-- A method without a body, and one with two cases for one value, a jump to `t` and a branch at its
end. -/
def routing (t : Nat) : Builder where
  classes := #[⟨"Router", none, false, [("todo", ⟨0⟩), ("route", ⟨1⟩)]⟩]
  methods := #[
    ⟨⟨"todo", ⟨0⟩, false, true, [], some ⟨0⟩, [], 0, 0⟩, true⟩,
    ⟨route, true⟩]
  vars := #[⟨"this", .object ⟨0⟩, ⟨0⟩⟩, ⟨"x", .int, ⟨1⟩⟩]
  stmts := #[
    ⟨⟨0⟩, none, .entry⟩,
    ⟨⟨0⟩, none, .exit⟩,
    ⟨⟨1⟩, none, .entry⟩,
    ⟨⟨1⟩, some 0, .switch ⟨1⟩ [(1, 2), (1, 3), (2, 2)] 1⟩,
    ⟨⟨1⟩, some 1, .goto t⟩,
    ⟨⟨1⟩, some 2, .nop⟩,
    ⟨⟨1⟩, some 3, .branch ⟨.lt, ⟨1⟩, ⟨1⟩⟩ 2⟩,
    ⟨⟨1⟩, none, .exit⟩]

open MethodBuilder in
theorem routing_assembled (t : Nat) : (routing t).Assembled := by
  have htodo := (Assembled.empty.addClass "Router" none).addAbstractMethod
    (show Builder.addAbstractMethod _ ⟨0⟩ "todo" = .ok _ from rfl)
  exact htodo.finish ⟨0⟩ "route" true rfl
    ((((((Edits.refl.addParam "x" .int).push
      (.switch ⟨1⟩ [(1, 2), (1, 3), (2, 2)] 1)).push (.goto 0)).push .nop).push
      (.branch ⟨.lt, ⟨1⟩, ⟨1⟩⟩ 2)).setTarget 1 t)

theorem Assembled.shapes_routing :
    ((routing 3).Assembled ∧ ∃ p g, (routing 3).build = .ok p ∧ p.method ⟨1⟩ = .ok route ∧
      p.controlFlow ⟨1⟩ = .ok g ∧ g.Shaped p ⟨1⟩ route) ∧
    ((routing 4).Assembled ∧ (∃ draft ∈ (routing 4).methods.toList, (routing 4).Faulty draft) ∧
      ∃ fault, (routing 4).build = .error (.invalidProgram fault)) := by
  obtain ⟨p, hp, hd⟩ : ∃ p, (routing 3).build = .ok p ∧ p.method ⟨1⟩ = .ok route :=
    ⟨_, rfl, by decide +kernel⟩
  obtain ⟨g, hg, hshaped⟩ := (Assembled.shapes (routing_assembled 3)).1 p hp ⟨1⟩ route hd
  have hfault : ∃ fault, (routing 4).build = .error (.invalidProgram fault) := ⟨_, rfl⟩
  exact ⟨⟨routing_assembled 3, p, g, hp, hd, hg, hshaped⟩, routing_assembled 4,
    (Assembled.shapes (routing_assembled 4)).2.2 hfault, hfault⟩

end Builder

end ProgramFlow
