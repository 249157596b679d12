import ProgramFlow.Proofs.Graph.Construction
import ProgramFlow.Proofs.Interprocedural.Refinement
import ProgramFlow.Proofs.PointsTo.Precision
/-!
A points-to analysis that finds less makes interprocedural constant propagation no worse: fewer
calls make a smaller supergraph, fewer common objects make fewer aliases, and both lower the facts.
-/
namespace ProgramFlow

variable {p : Program} {g g' : Supergraph}

/-- With fewer calls the supergraph has fewer methods and links. -/
theorem Program.within_of_supergraph {entries : List MethodId}
    {calls calls' : List (StmtId × MethodId)} (h : p.supergraph entries calls = .ok g)
    (h' : p.supergraph entries calls' = .ok g') (hsub : ∀ c ∈ calls, c ∈ calls') :
    g.Within g' := by
  have hmade := Program.supergraph_eq_ok h
  have hmade' := Program.supergraph_eq_ok h'
  have hw' := Program.walked_of_reachableMethods hmade'.methods
  have hlinked' := Program.supergraph_linked h'
  have hfound : ∀ m ∈ g.methods, m ∈ g'.methods := by
    refine Program.forall_of_reachableMethods
      (fun m hm => (hw'.entries m hm).resolve_right List.not_mem_nil) ?_ hmade.methods
    intro m hm d hd s hs callee hcallee
    exact (hw'.callees m hm d hd s hs callee (Program.mem_givenCallees.2 (hsub _ hcallee)))
      |>.resolve_right List.not_mem_nil
  have hgraph : ∀ c ∈ g.graphs, c ∈ g'.graphs := by
    intro c hc
    obtain ⟨hm, hok⟩ := hmade.mem_graphs_iff.1 hc
    exact hmade'.mem_graphs_iff.2 ⟨hfound _ hm, hok⟩
  refine ⟨hgraph, fun l hlink => ?_, ?_⟩
  · cases Program.asks_of_supergraph h hlink with
    | normal hc hn hi hcall hs => exact hlinked'.normal (hgraph _ hc) hn hi hcall hs
    | callToReturn hc hn hi hs => exact hlinked'.callToReturn (hgraph _ hc) hn hi hs
    | call hc hn hi hcallee hd =>
      exact (hlinked'.through (hgraph _ hc) hn hi
        (Program.mem_givenCallees.2 (hsub _ hcallee)) hd).1
    | ret hc hn hi hcallee hd hs =>
      exact (hlinked'.through (hgraph _ hc) hn hi
        (Program.mem_givenCallees.2 (hsub _ hcallee)) hd).2 _ hs
  · rw [Program.entryMethods_of_supergraph h, Program.entryMethods_of_supergraph h']

namespace PointsTo.Result

/-- Variables that may alias by the first analysis may alias by the second. -/
theorem Within.mayAlias {r r' : Result} {σ : Sensitivity} (hw : r.Within r')
    (h : Balanced p σ (Derivable p σ) r.state ∅) (hdone : r.state.pending.toList = []) {v w : VarId}
    (halias : r.mayAlias v w = true) : r'.mayAlias v w = true := by
  obtain ⟨o, hv, hw'⟩ := mayAlias_iff.1 halias
  obtain ⟨t, l, -, hfind⟩ := (mem_pointsTo h hdone).1 hv
  have hsite := siteOf?_eq_some_iff.2 hfind
  obtain ⟨x, hx, hxs⟩ := hw.pointsTo v ⟨o, hv, hsite⟩
  obtain ⟨y, hy, hys⟩ := hw.pointsTo w ⟨o, hw', hsite⟩
  cases (siteOf?_eq_some_iff.1 hxs).symm.trans (siteOf?_eq_some_iff.1 hys)
  exact mayAlias_iff.2 ⟨x, hx, hy⟩

end PointsTo.Result

namespace Interprocedural

variable {r r' : PointsTo.Result}

theorem intAccesses_mono {nodes nodes' : List StmtId} {l l' : List (StmtId × HeapAccess)}
    (h : intAccesses p nodes = .ok l) (h' : intAccesses p nodes' = .ok l')
    (hsub : ∀ n ∈ nodes, n ∈ nodes') {x : StmtId × HeapAccess} (hx : x ∈ l) : x ∈ l' := by
  obtain ⟨hn, hx⟩ := (mem_intAccesses_iff h).1 hx
  exact (mem_intAccesses_iff h').2 ⟨hsub _ hn, hx⟩

section

variable (hw : g.Within g')
  (hr : ∀ v w, r.mayAlias v w = true → r'.mayAlias v w = true)
include hr

theorem mayTouchSame_mono {a b : HeapAccess} (h : mayTouchSame r a b = true) :
    mayTouchSame r' a b = true := by
  simp only [mayTouchSame, Bool.and_eq_true] at h ⊢
  refine ⟨h.1, ?_⟩
  have hbase := h.2
  cases ha : a.base with
  | none =>
    cases hb : b.base with
    | none => rfl
    | some y => simp [mayShareBase, ha, hb] at hbase
  | some x =>
    cases hb : b.base with
    | none => simp [mayShareBase, ha, hb] at hbase
    | some y =>
      rw [ha, hb] at hbase
      exact hr x y hbase

include hw

theorem refines_aliases {al al' : Aliases} (h : aliases p g r = .ok al)
    (h' : aliases p g' r' = .ok al') : Refines (some al) (some al') := by
  obtain ⟨accesses, haccesses, hstores, -⟩ := exists_of_aliases h
  obtain ⟨accesses', haccesses', hstores', -⟩ := exists_of_aliases h'
  have hnodes : ∀ n ∈ g.nodes, n ∈ g'.nodes := fun n => hw.mem_nodes
  rintro _ ⟨⟩
  refine ⟨_, rfl, fun l s hs => ?_⟩
  rw [hstores, Aliases.mem_storesFor_ofPairs, mem_touching_iff] at hs
  rw [hstores', Aliases.mem_storesFor_ofPairs, mem_touching_iff]
  obtain ⟨a, b, hl, hload, hs, hstore, htouch⟩ := hs
  exact ⟨a, b, intAccesses_mono haccesses haccesses' hnodes hl, hload,
    intAccesses_mono haccesses haccesses' hnodes hs, hstore, mayTouchSame_mono hr htouch⟩

/-- What constant propagation finds with more aliases and a larger supergraph bounds what it finds
with less, and it does find something. -/
theorem exists_solve_below (hl : p.Layout) (hv : p.Declared) (hg : g.Closed p) (hg' : g'.Closed p)
    {aware aware' : Bool} (haware : aware' = true → aware = true) {a' : Option Aliases}
    (ha' : aliasesFor p g' aware' (some r') = .ok a') {t' : Dataflow.Table Fact}
    (ht' : (constantPropagation p a').solve g' = .ok t') :
    ∃ a t, aliasesFor p g aware (some r) = .ok a ∧ (constantPropagation p a).solve g = .ok t ∧
      ∀ n ∈ g.nodes, Below t.arriving t'.arriving n ∧ Below t.leaving t'.leaving n := by
  obtain ⟨a, ha, hrefines⟩ : ∃ a, aliasesFor p g aware (some r) = .ok a ∧ Refines a a' := by
    cases aware' with
    | false =>
      cases ha'
      cases aware with
      | false => exact ⟨none, rfl, .none _⟩
      | true =>
        obtain ⟨al, hal⟩ := exists_aliases hl hv hg r
        exact ⟨some al, by simp [aliasesFor, hal], .none _⟩
    | true =>
      obtain rfl := haware rfl
      obtain ⟨al', hal', rfl⟩ := Outcome.map_eq_ok.1 ha'
      obtain ⟨al, hal⟩ := exists_aliases hl hv hg r
      exact ⟨some al, by simp [aliasesFor, hal], refines_aliases hw hr hal hal'⟩
  have hfits : ∀ al, a = some al → al.Fits p g := fun al => fits_of_aliasesFor ha
  have hfits' : ∀ al, a' = some al → al.Fits p g' := fun al => fits_of_aliasesFor ha'
  obtain ⟨t, ht, hle⟩ := exists_solve_le hfits hfits' hrefines hl hv hg hg' hw ht'
  have hcovers := (solves_of_solve_eq_ok hl hv hg hfits ht).covers
  have hcovers' := (solves_of_solve_eq_ok hl hv hg' hfits' ht').covers
  refine ⟨a, t, ha, ht, fun n hn => ?_⟩
  have hn' := hw.mem_nodes hn
  exact ⟨⟨_, _, Dataflow.Table.find?_arriving hcovers hn, Dataflow.Table.find?_arriving hcovers' hn',
    hle.1 n⟩, ⟨_, _, Dataflow.Table.find?_leaving hcovers hn,
    Dataflow.Table.find?_leaving hcovers' hn', hle.2 n⟩⟩

end

end Interprocedural

end ProgramFlow
