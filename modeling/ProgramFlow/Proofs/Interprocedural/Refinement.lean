import ProgramFlow.Proofs.Dataflow.Analyses
import ProgramFlow.Proofs.Interprocedural.Comparison
/-!
Interprocedural constant propagation refines constant propagation in each method: knowing the
arguments, the results and what loads may read only lowers the facts. Without calls and without
aliases it finds the same.
-/
namespace ProgramFlow.Interprocedural

open Dataflow (Facts Table)
open Problem (arrivals boundaryNodes)

variable {p : Program} {g : Supergraph}

/-- Both maps have a fact for the node, the first at or below the second. -/
def Below (facts facts' : SortedMap StmtId Fact) (n : StmtId) : Prop :=
  ∃ f f', facts.find? n = some f ∧ facts'.find? n = some f' ∧ f ≤ f'

/-- What the equations of constant propagation say of the table of a method. -/
structure Describes (p : Program) (c : ControlFlowGraph) (t : Table Fact) : Prop where
  covers : t.Covers c.nodes
  boundary : p.parameterFact c.method = .ok (t.facts.leaving c.entry)
  arriving : ∀ {s n}, n ∈ c.succs s → t.facts.leaving s ≤ t.facts.arriving n
  leaving : ∀ {n}, n ∈ c.nodes → n ≠ c.entry →
    p.constantTransfer n (t.facts.arriving n) = .ok (t.facts.leaving n)

section Methods

variable (hl : p.Layout) (hv : p.Declared) {c : ControlFlowGraph}
  (hc : p.controlFlow c.method = .ok c)
include hl hv hc

theorem monotonic_of_controlFlow (hs : ∀ n ∈ c.nodes, ∀ tag, ¬ p.Unsupported n tag) :
    p.constantPropagation.Monotonic c (Fact.height p.vars.size) := by
  obtain ⟨d, hd, -, -, -, hnodes, -⟩ := hl.of_controlFlow hc
  exact Program.constantPropagation_monotonic hl hv hd
    (fun s hs => hl.instr_of_mem_nodes hd (hnodes ▸ hs)) hs

theorem exists_describes (hs : ∀ n ∈ c.nodes, ∀ tag, ¬ p.Unsupported n tag) :
    ∃ t, (∀ schedule, p.constantPropagation.solve c schedule = .ok t) ∧ Describes p c t := by
  have hmono := monotonic_of_controlFlow hl hv hc hs
  obtain ⟨d, hd, -, -, -, hnodes, hclosed⟩ := hl.of_controlFlow hc
  obtain ⟨t, ht, hleast⟩ := hmono.solve_eq_ok hclosed (hnodes ▸ d.nodup_nodes)
  obtain ⟨hcovers, hboundary, hsettled⟩ := (hmono.solves_iff hclosed).1 hleast.1
  have horder : ∀ {n}, n ∈ c.nodes → n ≠ c.entry → n ∈ p.constantPropagation.direction.order c :=
    fun hn hne => Dataflow.Direction.mem_order.2 ⟨hn, hne⟩
  refine ⟨t, ht, hcovers, hboundary, fun {s n} hsucc => ?_, fun {n} hn hne => ?_⟩
  · have hne : n ≠ c.entry := fun he => hl.entry_not_mem_succs hc s (he ▸ hsucc)
    rw [(hsettled n (horder (hclosed.succs hsucc) hne)).1]
    have hpred := hclosed.indexed.mem_preds_iff_mem_succs.2 hsucc
    exact (Dataflow.isLUB_join _).1 (List.mem_map_of_mem hpred)
  · obtain ⟨f, hf, -, -, hleave⟩ := hmono.leave_eq (horder hn hne)
    rw [(hsettled n (horder hn hne)).2, hleave]
    exact hf _

end Methods

/-- The facts of the methods, put together; at the entry of a method its boundary fact arrives as
well. -/
structure Joins (g : Supergraph) (T : ControlFlowGraph → Table Fact) (y : Facts Fact) : Prop where
  entry : ∀ {c}, c ∈ g.graphs → y.arriving c.entry = (T c).facts.leaving c.entry
  arriving : ∀ {c n}, c ∈ g.graphs → n ∈ c.nodes → n ≠ c.entry →
    y.arriving n = (T c).facts.arriving n
  leaving : ∀ {c n}, c ∈ g.graphs → n ∈ c.nodes → y.leaving n = (T c).facts.leaving n

theorem exists_joins (hl : p.Layout) (hg : g.Closed p) (T : ControlFlowGraph → Table Fact) :
    ∃ y, Joins g T y := by
  let graphOf (n : StmtId) := g.graphs.find? (n ∈ ·.nodes)
  have hgraph : ∀ {c n}, c ∈ g.graphs → n ∈ c.nodes → graphOf n = some c := by
    intro c n hc hn
    have hsome : (graphOf n).isSome := List.find?_isSome.2 ⟨c, hc, decide_eq_true hn⟩
    obtain ⟨c', hc'⟩ := Option.isSome_iff_exists.1 hsome
    have hmem := List.mem_of_find?_eq_some hc'
    have hn' : n ∈ c'.nodes := by simpa using List.find?_some hc'
    rw [hc', hg.graph_unique hl hmem hc hn' hn]
  let arriving (n : StmtId) (c : ControlFlowGraph) : Fact :=
    if n = c.entry then (T c).facts.leaving n else (T c).facts.arriving n
  refine ⟨⟨fun n => (graphOf n).elim ⊥ (arriving n),
    fun n => (graphOf n).elim ⊥ fun c => (T c).facts.leaving n⟩, fun {c} hc => ?_,
    fun {c n} hc hn hne => ?_, fun {c n} hc hn => ?_⟩
  · simp only [hgraph hc (hg.entry_mem hc), Option.elim_some, arriving, if_true]
  · simp only [hgraph hc hn, Option.elim_some, arriving, if_neg hne]
  · simp only [hgraph hc hn, Option.elim_some]

section Links

theorem Fact.set_undef_le (f : Fact) (v : VarId) : f.set v .undef ≤ f := by
  apply Fact.le_iff.2
  intro w
  rw [Fact.get_set]
  split
  · exact Value.undef_le _
  · exact le_rfl

theorem passCall_le {site : StmtId} {f k : Fact} (h : passCall p site f = .ok k) : k ≤ f := by
  obtain ⟨i, -, h⟩ := Outcome.bind_eq_ok.1 h
  cases h
  split
  · exact Fact.set_undef_le f _
  · exact le_rfl

theorem foldlM_set_le {l : List (VarId × VarId)} {f k k' b : Fact}
    (hb : ∀ e ∈ l, p.isIntVar e.2 = .ok true → b.get e.2 = .nac) (hk : k ≤ b)
    (h : l.foldlM (fun g (arg, param) => do
      return if ← p.isIntVar param then g.set param (f.get arg) else g) k = .ok k') : k' ≤ b := by
  induction l generalizing k with
  | nil =>
    cases h
    exact hk
  | cons e l ih =>
    obtain ⟨k₁, hk₁, h⟩ := Outcome.bind_eq_ok.1 h
    obtain ⟨isInt, hint, hk₁⟩ := Outcome.bind_eq_ok.1 hk₁
    cases hk₁
    apply ih (fun x hx => hb x (.tail _ hx)) _ h
    cases isInt with
    | false => exact hk
    | true =>
      apply Fact.le_iff.2
      intro w
      rw [if_pos rfl, Fact.get_set]
      split
      · next hw =>
        rw [hw, hb e (.head _) hint]
        exact Value.le_nac _
      · exact Fact.le_iff.1 hk w

/-- The entry of a method expects any arguments. -/
theorem passArguments_le {callee : MethodId} {d : MethodDecl} (hd : p.method callee = .ok d)
    {args : List VarId} {f k b : Fact} (h : passArguments p args d.params f = .ok k)
    (hb : p.parameterFact callee = .ok b) : k ≤ b := by
  apply foldlM_set_le _ bot_le h
  intro e he hint
  rw [Program.get_parameterFact hd hb, if_pos ⟨(List.of_mem_zip he).2, hint⟩]

variable {site : StmtId} {call : Call} (hi : p.instr site = .ok (.invoke call)) {x y : Fact}
  (hy : p.constantTransfer site x = .ok y)
include hi hy

/-- In its method a call changes no more than its result. -/
theorem le_transfer_of_invoke : x ≤ y := by
  obtain ⟨i, hi', hy⟩ := Outcome.bind_eq_ok.1 hy
  cases hi.symm.trans hi'
  obtain ⟨as, has, hy⟩ := Outcome.bind_eq_ok.1 hy
  cases hy
  unfold Program.assignment? at has
  split at has
  · cases has
    exact le_rfl
  · obtain ⟨isInt, -, has⟩ := Outcome.bind_eq_ok.1 has
    split at has
    · cases has
      exact le_rfl
    · cases has
      apply Fact.le_iff.2
      intro w
      rw [Fact.assign, Fact.get_set]
      split
      · exact Value.le_nac _
      · exact le_rfl

/-- In its method a call may return any result. -/
theorem passResult_le {returns : List VarId} {f k : Fact}
    (h : passResult p returns call.lhs f = .ok k) : k ≤ y := by
  obtain ⟨i, hi', hy⟩ := Outcome.bind_eq_ok.1 hy
  cases hi.symm.trans hi'
  cases hlhs : call.lhs with
  | none =>
    rw [hlhs] at h
    cases h
    exact bot_le
  | some v =>
    rw [hlhs] at h
    obtain ⟨isInt, hint, h⟩ := Outcome.bind_eq_ok.1 h
    cases isInt with
    | false =>
      cases h
      exact bot_le
    | true =>
      cases h
      simp only [Program.assignment?, Instr.assigned?, hlhs, hint, Outcome.ok_bind, Bool.not_true,
        Bool.false_eq_true, if_false, Outcome.pure_eq, Except.ok.injEq] at hy
      rw [← hy]
      exact Fact.set_mono bot_le (Value.le_nac _) v

end Links

section Union

variable (hp : p.Built) {entries : List MethodId} {calls : List (StmtId × MethodId)}
  (hg : p.supergraph entries calls = .ok g) {T : ControlFlowGraph → Table Fact}
  (hT : ∀ c ∈ g.graphs, Describes p c (T c))

variable {y : Facts Fact} (hy : Joins g T y)
include hp hg hT hy

/-- What a link carries from the facts of one method is at or below those of the other. -/
theorem carried_le {l : Link} (hlink : l ∈ g.links) {k : Fact}
    (hk : transferLink p l (y.leaving l.source) = .ok k) : k ≤ y.arriving l.target := by
  have hl := hp.layout
  have hclosed := hl.supergraph_closed hg
  have hlinked := Program.supergraph_linked hg
  have hsucc : ∀ {c n s}, c ∈ g.graphs → n ∈ c.nodes → s ∈ c.succs n →
      (T c).facts.leaving n ≤ y.arriving s := by
    intro c n s hc hn hs
    have hcf := hlinked.graphs c hc
    obtain ⟨d, -, -, -, -, -, hcc⟩ := hl.of_controlFlow hcf
    rw [hy.arriving hc (hcc.succs hs) fun he => hl.entry_not_mem_succs hcf n (he ▸ hs)]
    exact (hT c hc).arriving hs
  cases Program.asks_of_supergraph hg hlink with
  | normal hc hn hi hcall hs =>
    cases hk
    rw [hy.leaving hc hn]
    exact hsucc hc hn hs
  | callToReturn hc hn hi hs =>
    rw [hy.leaving hc hn] at hk
    exact (passCall_le hk).trans (hsucc hc hn hs)
  | call hc hn hi hcallee hd =>
    obtain ⟨-, htarget, -⟩ := hclosed.links _ hlink
    obtain ⟨c', hc', hentry⟩ := Supergraph.mem_nodes.1 htarget
    obtain ⟨d', hd', he, hnodes⟩ := hclosed.graphs c' hc'
    cases hl.method_unique hd hd' (MethodDecl.mem_nodes.2 (.inl rfl)) (hnodes ▸ hentry)
    cases hd.symm.trans hd'
    have harr := hy.entry hc'
    rw [he] at harr
    rw [harr, ← he]
    exact passArguments_le hd hk (hT c' hc').boundary
  | @ret c n _ call _ _ hc hn hi hcallee hd hs =>
    have hne : n ≠ c.entry := by
      rintro rfl
      obtain ⟨d', hd', he, -⟩ := hclosed.graphs c hc
      rw [he] at hi
      cases hi.symm.trans (Program.instr_eq_ok.2 ⟨_, hl.entry hd', rfl⟩)
    exact (passResult_le hi ((hT c hc).leaving hn hne) hk).trans (hsucc hc hn hs)

theorem transferred_le {n : StmtId} (hn : n ∈ g.nodes) {k : Fact}
    (hk : transferNode p none (arrivals g y.arriving) n (y.arriving n) = .ok k) :
    k ≤ y.leaving n := by
  have hl := hp.layout
  obtain ⟨c, hc, hn⟩ := Supergraph.mem_nodes.1 hn
  rw [hy.leaving hc hn]
  by_cases hne : n = c.entry
  · subst hne
    obtain ⟨d, hd, he, -⟩ := (hl.supergraph_closed hg).graphs c hc
    have hi : p.instr c.entry = .ok .entry := he ▸ Program.instr_eq_ok.2 ⟨_, hl.entry hd, rfl⟩
    rw [transferNode_idle hi (.inr rfl), hy.entry hc] at hk
    cases hk
    exact le_rfl
  · have htransfer := (hT c hc).leaving hn hne
    rw [hy.arriving hc hn hne] at hk
    obtain ⟨i, hi, -⟩ := Outcome.bind_eq_ok.1 htransfer
    cases hcall : i.isInvoke with
    | true =>
      rw [transferNode_idle hi (.inl hcall)] at hk
      cases hk
      obtain ⟨call, hcall⟩ := Option.isSome_iff_exists.1 hcall
      have hinvoke : i = .invoke call := by
        cases i <;> simp_all [Instr.call?]
      exact le_transfer_of_invoke (hinvoke ▸ hi) htransfer
    | false =>
      rw [transferNode_plain hi hcall (by rintro _ _ ⟨⟩)] at hk
      rw [Program.constantTransfer, hi, Outcome.ok_bind] at htransfer
      cases hk.symm.trans htransfer
      exact le_rfl

theorem bounds_joins (hv : p.Declared) (hs : ∀ n ∈ g.nodes, ∀ tag, ¬ p.Unsupported n tag) :
    ((constantPropagation p none).system g).Bounds y := by
  have hmono := constantPropagation_monotonic hp.layout hv
    (hp.layout.supergraph_closed hg) fits_none hs
  have hindexed := (hp.layout.supergraph_closed hg).indexed
  intro n hn
  constructor
  · apply (Dataflow.isLUB_join _).2
    intro x hx
    obtain ⟨l, hlink, rfl⟩ := List.mem_map.1 hx
    obtain ⟨f, hf, -, -, hcarry⟩ := hmono.carry_eq hlink
    obtain ⟨hmem, rfl⟩ := hindexed.mem_inLinks.1 hlink
    rw [hcarry]
    exact carried_le hp hg hT hy hmem (hf _)
  · obtain ⟨f, hf, -, -, -, hleave⟩ := hmono.leave_eq hn
    rw [hleave]
    exact transferred_le hp hg hT hy hn.1 (hf _)

/-- Without aliases the solver stays at or below the methods' own solutions. -/
theorem plain_le_joins (hv : p.Declared) {t : Table Fact}
    (ht : (constantPropagation p none).solve g = .ok t) : t.facts ≤ y := by
  have hclosed := hp.layout.supergraph_closed hg
  have hs := supported_of_solve_eq_ok hp.layout hv hclosed fits_none ht
  have hmono := constantPropagation_monotonic hp.layout hv hclosed fits_none hs
  refine hmono.solve_le hp.layout hclosed ht (bounds_joins hp hg hT hy hv hs) ?_
  intro m c b _ hc hb
  obtain ⟨hmem, rfl⟩ := Supergraph.of_graph?_eq_some hc
  rw [hy.leaving hmem (hclosed.entry_mem hmem)]
  exact (Except.ok.inj (hb.symm.trans (hT c hmem).boundary)).le

end Union

section Alone

variable (hp : p.Built) (hv : p.Declared) {entries : List MethodId}
  {calls : List (StmtId × MethodId)} (hg : p.supergraph entries calls = .ok g)
  (hentry : ∀ m ∈ g.methods, m ∈ g.entryMethods)
  (hcall : ∀ n ∈ g.nodes, ∀ i, p.instr n = .ok i → i.isInvoke = false)
  {t u : Table Fact} (ht : (constantPropagation p none).solve g = .ok t)
  {c : ControlFlowGraph} (hc : c ∈ g.graphs) {schedule : Dataflow.Schedule}
  (hu : p.constantPropagation.solve c schedule = .ok u)
include hp hv hg hentry hcall ht hc hu

/-- Without calls and other callers a method has no more to expect than in itself. -/
theorem method_le_plain : u.facts ≤ t.facts := by
  have hl := hp.layout
  have hclosed := hl.supergraph_closed hg
  have hlinked := Program.supergraph_linked hg
  have hs := supported_of_solve_eq_ok hl hv hclosed fits_none ht
  have hinter := constantPropagation_monotonic hl hv hclosed fits_none hs
  obtain ⟨-, hbound, hsettled⟩ := (hinter.solves_iff hclosed).1
    (solves_of_solve_eq_ok hl hv hclosed fits_none ht)
  have hmem : ∀ {n}, n ∈ c.nodes → n ∈ g.nodes := fun hn => Supergraph.mem_nodes.2 ⟨c, hc, hn⟩
  have hcf := hlinked.graphs c hc
  have hmono := monotonic_of_controlFlow hl hv hcf fun n hn => hs n (hmem hn)
  obtain ⟨d, -, -, -, -, hnodes, hcc⟩ := hl.of_controlFlow hcf
  refine hmono.solve_le hcc (hnodes ▸ d.nodup_nodes) hu (fun n hn => ?_) fun b hb => ?_
  · obtain ⟨hn, hne⟩ := Dataflow.Direction.mem_order.1 (Dataflow.Problem.free_iff.1 hn)
    have hfree : ((constantPropagation p none).system g).Free n := by
      refine ⟨hmem hn, fun hb => hne ?_⟩
      obtain ⟨m, -, c', hc', rfl⟩ := Problem.mem_boundaryNodes.1 hb
      obtain ⟨hmem', -⟩ := Supergraph.of_graph?_eq_some hc'
      rw [hclosed.graph_unique hl hmem' hc (hclosed.entry_mem hmem') hn]
      rfl
    obtain ⟨harr, hleave⟩ := hsettled n hfree
    constructor
    · rw [harr]
      apply Dataflow.join_le_join
      intro x hx
      obtain ⟨s, hpred, rfl⟩ := List.mem_map.1 hx
      have hsucc : n ∈ c.succs s := hcc.indexed.mem_preds_iff_mem_succs.1 hpred
      have hsn : s ∈ c.nodes := hcc.preds hpred
      obtain ⟨i, hi⟩ := hclosed.instr hl (hmem hsn)
      have hlink := hlinked.normal hc hsn hi (hcall s (hmem hsn) i hi) hsucc
      exact ⟨_, List.mem_map_of_mem (hclosed.indexed.mem_inLinks.2 ⟨hlink, rfl⟩), le_rfl⟩
    · obtain ⟨f, hf, -, -, hfeq⟩ := hmono.leave_eq (Dataflow.Direction.mem_order.2 ⟨hn, hne⟩)
      obtain ⟨f', hf', -, -, -, hfeq'⟩ := hinter.leave_eq hfree
      obtain ⟨i, hi⟩ := hclosed.instr hl (hmem hn)
      have hsame : p.constantTransfer n (t.facts.arriving n) = .ok (f' t.facts.arriving) := by
        rw [← hf' t.facts.arriving, Program.constantTransfer, hi, Outcome.ok_bind]
        have hplain := transferNode_plain (a := none) hi (hcall n (hmem hn) i hi) (by rintro _ _ ⟨⟩)
        exact (hplain (arrivals g t.facts.arriving) _).symm
      rw [hleave, hfeq, hfeq']
      exact (Except.ok.inj ((hf _).symm.trans hsame)).le
  · have hboundary := hbound _ c (hentry _ (List.mem_map_of_mem hc)) (hclosed.graph?_of_mem hc)
    exact (Except.ok.inj (hb.symm.trans hboundary)).le

/-- With nothing else to expect the two solutions are the same in the method. -/
theorem find?_plain_eq {y : Facts Fact} (hle : t.facts ≤ y) {T : ControlFlowGraph → Table Fact}
    (hy : Joins g T y) (hT : u = T c) {n : StmtId} (hn : n ∈ c.nodes) :
    t.arriving.find? n = u.arriving.find? n ∧ t.leaving.find? n = u.leaving.find? n := by
  have hl := hp.layout
  have hclosed := hl.supergraph_closed hg
  have hcf := (Program.supergraph_linked hg).graphs c hc
  have hs := supported_of_solve_eq_ok hl hv hclosed fits_none ht
  have hinter := constantPropagation_monotonic hl hv hclosed fits_none hs
  have hmem : ∀ {n}, n ∈ c.nodes → n ∈ g.nodes := fun hn => Supergraph.mem_nodes.2 ⟨c, hc, hn⟩
  have hmono := monotonic_of_controlFlow hl hv hcf fun n hn => hs n (hmem hn)
  obtain ⟨d, -, -, -, -, hnodes, hcc⟩ := hl.of_controlFlow hcf
  have hge := method_le_plain hp hv hg hentry hcall ht hc hu
  have hcovers := (solves_of_solve_eq_ok hl hv hclosed fits_none ht).covers
  have hcovers' := (hl.solves_of_solve_eq_ok hcf hu).covers
  have harr : t.facts.arriving n = u.facts.arriving n := by
    refine le_antisymm ?_ (hge.1 n)
    by_cases hne : n = c.entry
    · have hboundary : n ∈ boundaryNodes g := Problem.mem_boundaryNodes.2
        ⟨_, hentry _ (List.mem_map_of_mem hc), c, hclosed.graph?_of_mem hc, hne.symm⟩
      rw [hinter.arriving_of_mem_boundaryNodes hl hclosed ht hboundary]
      exact bot_le
    · rw [hT, ← hy.arriving hc hn hne]
      exact hle.1 n
  have hleave : t.facts.leaving n = u.facts.leaving n := by
    refine le_antisymm ?_ (hge.2 n)
    rw [hT, ← hy.leaving hc hn]
    exact hle.2 n
  rw [Dataflow.Table.find?_arriving hcovers (hmem hn), Dataflow.Table.find?_arriving hcovers' hn,
    Dataflow.Table.find?_leaving hcovers (hmem hn), Dataflow.Table.find?_leaving hcovers' hn, harr,
    hleave]
  exact ⟨rfl, rfl⟩

end Alone

/-- If the solver succeeds with or without aliases it succeeds both ways, and so does constant
propagation in each method. The facts with aliases are at or below those without, and these are at
or below those of the methods; what arrives at the entry of a method depends on its callers. When
all methods are entry methods and none calls another, the last two are the same. -/
theorem solve_refines (hp : p.Built) (hv : p.Declared) {entries : List MethodId}
    {calls : List (StmtId × MethodId)} (hg : p.supergraph entries calls = .ok g)
    (r : PointsTo.Result) {aware : Bool} {a : Option Aliases}
    (ha : aliasesFor p g aware (some r) = .ok a) {t : Table Fact}
    (ht : (constantPropagation p a).solve g = .ok t) :
    ∃ al t₁ t₂, aliases p g r = .ok al ∧ (constantPropagation p (some al)).solve g = .ok t₁ ∧
      (constantPropagation p none).solve g = .ok t₂ ∧
      ∃ T : ControlFlowGraph → Table Fact, ∀ m ∈ g.methods, ∃ c, p.controlFlow m = .ok c ∧
        (∀ schedule, p.constantPropagation.solve c schedule = .ok (T c)) ∧
        (∀ n ∈ c.nodes, Below t₁.leaving t₂.leaving n ∧ Below t₂.leaving (T c).leaving n ∧
          Below t₁.arriving t₂.arriving n ∧
          (n ≠ c.entry → Below t₂.arriving (T c).arriving n)) ∧
        ((∀ m ∈ g.methods, m ∈ g.entryMethods) →
          (∀ n ∈ g.nodes, ∀ i, p.instr n = .ok i → i.isInvoke = false) → ∀ n ∈ c.nodes,
            t₂.arriving.find? n = (T c).arriving.find? n ∧
            t₂.leaving.find? n = (T c).leaving.find? n) := by
  have hl := hp.layout
  have hclosed := hl.supergraph_closed hg
  have hlinked := Program.supergraph_linked hg
  have hs := supported_of_solve_eq_ok hl hv hclosed (fun al => fits_of_aliasesFor ha) ht
  obtain ⟨al, hal⟩ := exists_aliases hl hv hclosed r
  have hfits := fits_of_aliases_eq_ok hal
  obtain ⟨t₂, ht₂, -⟩ := (constantPropagation_monotonic hl hv hclosed fits_none hs).solve_eq_ok hl
    hclosed
  obtain ⟨t₁, ht₁, hle₁⟩ := exists_solve_le hfits fits_none (.none _) hl hv hclosed hclosed (.refl g)
    ht₂
  have hmethod : ∀ c ∈ g.graphs, ∃ u,
      (∀ schedule, p.constantPropagation.solve c schedule = .ok u) ∧ Describes p c u :=
    fun c hc => exists_describes hl hv (hlinked.graphs c hc) fun n hn =>
      hs n (Supergraph.mem_nodes.2 ⟨c, hc, hn⟩)
  have : Nonempty (Table Fact) := ⟨t⟩
  choose! T hT using hmethod
  obtain ⟨y, hy⟩ := exists_joins hl hclosed T
  have hle₂ := plain_le_joins hp hg (fun c hc => (hT c hc).2) hy hv ht₂
  have hcovers₁ := (solves_of_solve_eq_ok hl hv hclosed hfits ht₁).covers
  have hcovers₂ := (solves_of_solve_eq_ok hl hv hclosed fits_none ht₂).covers
  refine ⟨al, t₁, t₂, hal, ht₁, ht₂, T, fun m hm => ?_⟩
  obtain ⟨c, hc, rfl⟩ := List.mem_map.1 hm
  obtain ⟨hsolve, hdesc⟩ := hT c hc
  refine ⟨c, hlinked.graphs c hc, hsolve, fun n hn => ?_, fun hentry hcall n hn => ?_⟩
  · have hmem : n ∈ g.nodes := Supergraph.mem_nodes.2 ⟨c, hc, hn⟩
    refine ⟨⟨_, _, Table.find?_leaving hcovers₁ hmem, Table.find?_leaving hcovers₂ hmem, hle₁.2 n⟩,
      ⟨_, _, Table.find?_leaving hcovers₂ hmem, Table.find?_leaving hdesc.covers hn, ?_⟩,
      ⟨_, _, Table.find?_arriving hcovers₁ hmem, Table.find?_arriving hcovers₂ hmem, hle₁.1 n⟩,
      fun hne => ⟨_, _, Table.find?_arriving hcovers₂ hmem, Table.find?_arriving hdesc.covers hn,
        ?_⟩⟩
    · rw [← hy.leaving hc hn]
      exact hle₂.2 n
    · rw [← hy.arriving hc hn hne]
      exact hle₂.1 n
  · exact find?_plain_eq hp hv hg hentry hcall ht₂ hc (hsolve .workList) hle₂ hy rfl hn

/-- The facts before the branch of the sample, and the facts before the return of its other method,
which calls nothing. -/
theorem solve_refines_sample :
    (∃ g r al t₁ t₂ c u, Program.sample.supergraph [⟨2⟩] [(⟨12⟩, ⟨0⟩)] = .ok g ∧
      PointsTo.analyze Program.sample .insensitive = .ok r ∧ aliases Program.sample g r = .ok al ∧
      (constantPropagation Program.sample (some al)).solve g = .ok t₁ ∧
      (constantPropagation Program.sample none).solve g = .ok t₂ ∧
      Program.sample.controlFlow ⟨2⟩ = .ok c ∧
      Program.sample.constantPropagation.solve c .workList = .ok u ∧
      Below t₁.arriving t₂.arriving ⟨13⟩ ∧ Below t₂.arriving u.arriving ⟨13⟩) ∧
    ∃ g t₂ c u, Program.sample.supergraph [⟨0⟩] [] = .ok g ∧
      (constantPropagation Program.sample none).solve g = .ok t₂ ∧
      Program.sample.controlFlow ⟨0⟩ = .ok c ∧
      Program.sample.constantPropagation.solve c .workList = .ok u ∧
      t₂.arriving.find? ⟨2⟩ = u.arriving.find? ⟨2⟩ := by
  have hstart : ∀ m calls, (do
      let g ← Program.sample.supergraph [m] calls
      let r ← PointsTo.analyze Program.sample .insensitive
      let a ← aliasesFor Program.sample g true (some r)
      let _ ← (constantPropagation Program.sample a).solve g
      return decide (m ∈ g.methods) : Outcome Bool) = .ok true →
      ∃ g, Program.sample.supergraph [m] calls = .ok g ∧ m ∈ g.methods ∧
        ∃ r, PointsTo.analyze Program.sample .insensitive = .ok r ∧
        ∃ a, aliasesFor Program.sample g true (some r) = .ok a ∧
        ∃ t, (constantPropagation Program.sample a).solve g = .ok t := by
    intro m calls hrun
    obtain ⟨g, hg, hrun⟩ := Outcome.bind_eq_ok.1 hrun
    obtain ⟨r, hr, hrun⟩ := Outcome.bind_eq_ok.1 hrun
    obtain ⟨a, ha, hrun⟩ := Outcome.bind_eq_ok.1 hrun
    obtain ⟨t, ht, hrun⟩ := Outcome.bind_eq_ok.1 hrun
    exact ⟨g, hg, of_decide_eq_true (Except.ok.inj hrun), r, hr, a, ha, t, ht⟩
  have hp := Program.sample_built
  have hv := Program.sample_scoped.declared
  constructor
  · obtain ⟨g, hg, hmem, r, hr, a, ha, t, ht⟩ := hstart ⟨2⟩ [(⟨12⟩, ⟨0⟩)] (by decide +kernel)
    obtain ⟨al, t₁, t₂, hal, ht₁, ht₂, T, hT⟩ := solve_refines hp hv hg r ha ht
    obtain ⟨c, hc, hu, hbelow, -⟩ := hT ⟨2⟩ hmem
    cases hc.symm.trans rfl
    obtain ⟨-, -, h₁, h₂⟩ := hbelow ⟨13⟩ (by decide)
    exact ⟨g, r, al, t₁, t₂, _, _, hg, hr, hal, ht₁, ht₂, hc, hu .workList, h₁, h₂ (by decide)⟩
  · obtain ⟨g, hg, hmem, r, hr, a, ha, t, ht⟩ := hstart ⟨0⟩ [] (by decide +kernel)
    obtain ⟨al, t₁, t₂, -, -, ht₂, T, hT⟩ := solve_refines hp hv hg r ha ht
    obtain ⟨c, hc, hu, -, hsame⟩ := hT ⟨0⟩ hmem
    cases hc.symm.trans rfl
    have halone : (fun g : Supergraph => decide ((∀ m ∈ g.methods, m ∈ g.entryMethods) ∧
        ∀ n ∈ g.nodes, Program.sample.isInvoke n = .ok false)) <$>
          Program.sample.supergraph [⟨0⟩] [] = .ok true := by decide +kernel
    rw [hg] at halone
    obtain ⟨hentry, hcall⟩ := of_decide_eq_true (Except.ok.inj halone)
    refine ⟨g, t₂, _, _, hg, ht₂, hc, hu .workList, (hsame hentry ?_ ⟨2⟩ (by decide)).1⟩
    intro n hn i hi
    have hno := hcall n hn
    rw [Program.isInvoke, hi] at hno
    exact Except.ok.inj hno

end ProgramFlow.Interprocedural
