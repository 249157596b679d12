import ProgramFlow.Proofs.Interprocedural.Accesses
import ProgramFlow.Proofs.Interprocedural.Soundness
/-!
Solutions of interprocedural constant propagation on two supergraphs, with two sets of aliases. With
fewer methods and links and with fewer stores for each load, what holds at a node is at or below
what held there before, and a run without aliases is above all runs with them.
-/
namespace ProgramFlow

namespace Dataflow

theorem join_le_join {φ : Type} [SemilatticeSup φ] [OrderBot φ] {l l' : List φ}
    (h : ∀ x ∈ l, ∃ y ∈ l', x ≤ y) : join l ≤ join l' := by
  apply (isLUB_join l).2
  intro x hx
  obtain ⟨y, hy, hle⟩ := h x hx
  exact hle.trans ((isLUB_join l').1 hy)

end Dataflow

namespace Supergraph

/-- The first supergraph has no methods and links but those of the second, and both have the same
entry methods. -/
structure Within (g g' : Supergraph) : Prop where
  graphs : ∀ c ∈ g.graphs, c ∈ g'.graphs
  links : ∀ l ∈ g.links, l ∈ g'.links
  entries : g.entryMethods = g'.entryMethods

variable {p : Program} {g g' : Supergraph}

theorem Within.refl (g : Supergraph) : g.Within g := ⟨fun _ => id, fun _ => id, rfl⟩

theorem Within.mem_nodes (h : g.Within g') {n : StmtId} (hn : n ∈ g.nodes) : n ∈ g'.nodes := by
  obtain ⟨c, hc, hn⟩ := Supergraph.mem_nodes.1 hn
  exact Supergraph.mem_nodes.2 ⟨c, h.graphs c hc, hn⟩

theorem Closed.graph?_of_mem (h : g.Closed p) {c : ControlFlowGraph} (hc : c ∈ g.graphs) :
    g.graph? c.method = some c := by
  have hsome : (g.graph? c.method).isSome := List.find?_isSome.2 ⟨c, hc, beq_self_eq_true _⟩
  obtain ⟨c', hc'⟩ := Option.isSome_iff_exists.1 hsome
  obtain ⟨hmem, hm⟩ := of_graph?_eq_some hc'
  rw [hc', List.inj_on_of_nodup_map h.methods hmem hc hm]

theorem Within.graph?_eq_some (h : g.Within g') (hg' : g'.Closed p) {m : MethodId}
    {c : ControlFlowGraph} (hc : g.graph? m = some c) : g'.graph? m = some c := by
  obtain ⟨hmem, rfl⟩ := of_graph?_eq_some hc
  exact hg'.graph?_of_mem (h.graphs c hmem)

end Supergraph

namespace Interprocedural

open Dataflow (join)
open Problem (arrivals boundaryNodes)

theorem fits_none {p : Program} {g : Supergraph} :
    ∀ al, (none : Option Aliases) = some al → al.Fits p g :=
  fun _ h => nomatch h

/-- A load reads no other stores with the first aliases than with the second; without aliases it
may read anything. -/
def Refines (a a' : Option Aliases) : Prop :=
  ∀ al', a' = some al' → ∃ al, a = some al ∧ ∀ l, ∀ s ∈ al.storesFor l, s ∈ al'.storesFor l

theorem Refines.none (a : Option Aliases) : Refines a none := fun _ h => nomatch h

variable {p : Program} {g g' : Supergraph} {a a' : Option Aliases}

theorem boundaryNodes_of_within (hg : g.Closed p) (hg' : g'.Closed p) (hw : g.Within g')
    {n : StmtId} (hn : n ∈ boundaryNodes g') : n ∈ boundaryNodes g := by
  obtain ⟨m, hm, c', hc', rfl⟩ := Problem.mem_boundaryNodes.1 hn
  rw [← hw.entries] at hm
  obtain ⟨c, hc⟩ := hg.graph?_eq_some hm
  cases hc'.symm.trans (hw.graph?_eq_some hg' hc)
  exact Problem.mem_boundaryNodes.2 ⟨m, hm, _, hc, rfl⟩

/-- What a load assigns without aliases. -/
theorem transferPlain_load {n : StmtId} {i : Instr} {lhs : VarId} (hl : loadedVar? i = some lhs)
    (hv : p.isIntVar lhs = .ok true) (f : Fact) : transferPlain p n i f = .ok (f.set lhs .nac) := by
  cases i <;> simp_all [loadedVar?, transferPlain, Program.assignment?, Instr.assigned?, Fact.assign]

section Aliases

theorem isIntVar_of_heapAccess? (hv : p.Declared) {n : StmtId} {i : Instr}
    (hi : p.instr n = .ok i) {access : HeapAccess} (h : heapAccess? i = some access) :
    ∃ b, p.isIntVar access.value = .ok b := by
  apply hv.isIntVar hi
  cases i <;> simp_all [heapAccess?, Instr.uses, Instr.assigned?] <;> subst h <;> simp

theorem exists_intAccesses (hv : p.Declared) {nodes : List StmtId}
    (hn : ∀ n ∈ nodes, ∃ i, p.instr n = .ok i) : ∃ l, intAccesses p nodes = .ok l := by
  apply Outcome.exists_filterMapM
  intro n hmem
  obtain ⟨i, hi⟩ := hn n hmem
  cases ha : heapAccess? i with
  | none => exact ⟨none, by simp [hi, ha]⟩
  | some access =>
    obtain ⟨b, hb⟩ := isIntVar_of_heapAccess? hv hi ha
    exact ⟨_, by simp only [hi, ha, hb, Outcome.ok_bind, Outcome.pure_eq]; rfl⟩

/-- Whatever the variables point to, there are aliases. -/
theorem exists_aliases (hl : p.Layout) (hv : p.Declared) (hg : g.Closed p) (r : PointsTo.Result) :
    ∃ al, aliases p g r = .ok al := by
  obtain ⟨accesses, haccesses⟩ := exists_intAccesses hv fun n hn => hg.instr hl hn
  exact ⟨_, by rw [aliases, accessTable_eq haccesses]; rfl⟩

theorem exists_aliasesFor (hl : p.Layout) (hv : p.Declared) (hg : g.Closed p) (aware : Bool)
    (r : PointsTo.Result) : ∃ a, aliasesFor p g aware (some r) = .ok a := by
  obtain ⟨al, hal⟩ := exists_aliases hl hv hg r
  cases aware with
  | true => exact ⟨some al, by simp [aliasesFor, hal]⟩
  | false => exact ⟨none, rfl⟩

end Aliases

section Transfer

variable (ha : ∀ al, a = some al → al.Fits p g) (ha' : ∀ al, a' = some al → al.Fits p g')
  (hr : Refines a a')
include ha ha' hr

theorem transferNode_le (hv : p.Declared) {n : StmtId} {i : Instr} (hi : p.instr n = .ok i)
    {A : StmtId → Fact} {y y' : Fact} (hy : transferNode p a (arrivals g A) n (A n) = .ok y)
    (hy' : transferNode p a' (arrivals g' A) n (A n) = .ok y') : y ≤ y' := by
  cases hcall : i.isInvoke with
  | true =>
    simp only [transferNode, hi, Outcome.ok_bind, hcall, if_true, Outcome.pure_eq,
      Except.ok.injEq] at hy hy'
    rw [← hy, ← hy']
  | false =>
    by_cases hload : ∃ al lhs, a = some al ∧ loadedVar? i = some lhs ∧ p.isIntVar lhs = .ok true
    · obtain ⟨al, lhs, rfl, hl, hint⟩ := hload
      obtain ⟨instr, hinstr, ht⟩ := transferNode_load (ha al rfl) hi hl hint
      cases hy.symm.trans (ht A)
      cases a' with
      | none =>
        rw [transferNode_plain hi hcall (by rintro _ _ ⟨⟩), transferPlain_load hl hint] at hy'
        cases hy'
        exact Fact.set_mono le_rfl (Value.le_nac _) lhs
      | some al' =>
        obtain ⟨instr', hinstr', ht'⟩ := transferNode_load (ha' al' rfl) hi hl hint
        cases hy'.symm.trans (ht' A)
        obtain ⟨_, ⟨⟩, hsub⟩ := hr al' rfl
        refine Fact.set_mono le_rfl (Dataflow.join_le_join fun x hx => ?_) lhs
        obtain ⟨s, hs, rfl⟩ := List.mem_map.1 hx
        refine ⟨_, List.mem_map_of_mem (hsub n s hs), ?_⟩
        rw [Except.ok.inj ((hinstr s hs).symm.trans (hinstr' s (hsub n s hs)))]
    · have hplain : ∀ al lhs, a = some al → loadedVar? i = some lhs →
          p.isIntVar lhs = .ok false := by
        intro al lhs hal hl
        obtain ⟨b, hb⟩ := hv.isIntVar hi (.inr (assigned?_of_loadedVar? hl))
        cases b with
        | false => exact hb
        | true => exact absurd ⟨al, lhs, hal, hl, hb⟩ hload
      have hplain' : ∀ al lhs, a' = some al → loadedVar? i = some lhs →
          p.isIntVar lhs = .ok false := by
        intro al' lhs hal hl
        obtain ⟨al, hal, -⟩ := hr al' hal
        exact hplain al lhs hal hl
      rw [transferNode_plain hi hcall hplain] at hy
      rw [transferNode_plain hi hcall hplain'] at hy'
      cases hy.symm.trans hy'
      exact le_rfl

variable (hl : p.Layout) (hv : p.Declared) (hg : g.Closed p) (hg' : g'.Closed p)
  (hw : g.Within g') {t' : Dataflow.Table Fact} (ht' : (constantPropagation p a').solve g' = .ok t')
include hl hv hg hg' hw ht'

/-- What the solver finds with less is at or below what it finds with more, and it does find
something. -/
theorem exists_solve_le : ∃ t, (constantPropagation p a).solve g = .ok t ∧ t ≤ t' := by
  have hs' := supported_of_solve_eq_ok hl hv hg' ha' ht'
  have hmono' := constantPropagation_monotonic hl hv hg' ha' hs'
  obtain ⟨-, hbound, hsettled⟩ :=
    (hmono'.solves_iff hg').1 (solves_of_solve_eq_ok hl hv hg' ha' ht')
  have hmono := constantPropagation_monotonic hl hv hg ha fun n hn => hs' n (hw.mem_nodes hn)
  obtain ⟨t, ht, -⟩ := hmono.solve_eq_ok hl hg
  refine ⟨t, ht, hmono.solve_le hl hg ht (fun n hn => ?_) fun m c b hm hc hb => ?_⟩
  · have hn' : ((constantPropagation p a').system g').Free n :=
      ⟨hw.mem_nodes hn.1, fun hb => hn.2 (boundaryNodes_of_within hg hg' hw hb)⟩
    obtain ⟨harr, hleave⟩ := hsettled n hn'
    constructor
    · rw [harr]
      apply Dataflow.join_le_join
      intro x hx
      obtain ⟨l, hl, rfl⟩ := List.mem_map.1 hx
      obtain ⟨hmem, htarget⟩ := hg.indexed.mem_inLinks.1 hl
      have hmem' := hg'.indexed.mem_inLinks.2 ⟨hw.links l hmem, htarget⟩
      exact ⟨_, List.mem_map_of_mem hmem', le_rfl⟩
    · rw [hleave]
      obtain ⟨f, hf, -, -, -, hfeq⟩ := hmono.leave_eq hn
      obtain ⟨f', hf', -, -, -, hfeq'⟩ := hmono'.leave_eq hn'
      obtain ⟨i, hi⟩ := hg.instr hl hn.1
      rw [hfeq, hfeq']
      exact transferNode_le ha ha' hr hv hi (hf _) (hf' _)
  · rw [hw.entries] at hm
    exact (Except.ok.inj (hb.symm.trans (hbound m c hm (hw.graph?_eq_some hg' hc)))).le

end Transfer

end Interprocedural

end ProgramFlow
