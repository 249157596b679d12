import ProgramFlow.Interprocedural.Problem
import ProgramFlow.Proofs.Dataflow.Solution
import ProgramFlow.Proofs.Graph.Supergraph
/-!
Dataflow problems over a supergraph. With monotone transfers the work list finds the least
solution, also where nodes read facts that arrive elsewhere; it stops at the first node whose
transfer always fails.
-/
namespace ProgramFlow.Interprocedural.Problem

open Dataflow (Facts Height State System Table enqueue join)

section

variable {φ : Type} [LE φ] (P : Problem φ) (g : Supergraph)

/-- The table satisfies the equations of the problem: the entry node of an entry method carries its
boundary fact, what arrives at another node is the least upper bound of what its links carry to it,
and what leaves it is the transfer of that. -/
structure Solves (t : Table φ) : Prop where
  covers : t.Covers g.nodes
  boundary : ∀ m ∈ g.entryMethods, ∃ c b, g.graph? m = some c ∧ P.boundary m = .ok b ∧
    t.leaving.find? c.entry = some b
  arriving : ∀ n ∈ g.nodes, n ∉ boundaryNodes g → ∃ x, t.arriving.find? n = some x ∧
    IsLUB {y | ∃ l ∈ g.inLinks n, ∃ z, t.leaving.find? l.source = some z ∧
      P.transferLink l z = .ok y} x
  leaving : ∀ n ∈ g.nodes, n ∉ boundaryNodes g → ∃ x y, t.arriving.find? n = some x ∧
    P.transferNode t.arriving n x = .ok y ∧ t.leaving.find? n = some y

variable {P g} in
/-- What a link carries to a node is below what arrives there. -/
theorem Solves.le_arriving {t : Table φ} (h : P.Solves g t) (hg : g.Indexed) {l : Link}
    (hl : l ∈ g.links) (ht : l.target ∈ g.nodes) (hb : l.target ∉ boundaryNodes g) {x y : φ}
    (hx : t.leaving.find? l.source = some x) (hy : P.transferLink l x = .ok y) :
    ∃ z, t.arriving.find? l.target = some z ∧ y ≤ z := by
  obtain ⟨z, hz, hlub⟩ := h.arriving _ ht hb
  exact ⟨z, hz, hlub.1 ⟨l, hg.mem_inLinks.2 ⟨hl, rfl⟩, x, hx, hy⟩⟩

end

/-- The facts that arrive at the nodes, as a node that reads them finds them. -/
def arrivals {φ : Type} (g : Supergraph) (A : StmtId → φ) : SortedMap StmtId φ :=
  .ofList (g.nodes.map fun n => (n, A n))

theorem find?_arrivals {φ : Type} {g : Supergraph} (A : StmtId → φ) {n : StmtId}
    (hn : n ∈ g.nodes) : (arrivals g A).find? n = some (A n) := by
  rw [arrivals, SortedMap.find?_ofList_map, if_pos hn]

theorem mem_boundaryNodes {g : Supergraph} {n : StmtId} :
    n ∈ boundaryNodes g ↔ ∃ m ∈ g.entryMethods, ∃ c, g.graph? m = some c ∧ c.entry = n := by
  simp only [boundaryNodes, List.mem_map, List.mem_filterMap]
  constructor
  · rintro ⟨c, ⟨m, hm, hc⟩, hn⟩
    exact ⟨m, hm, c, hc, hn⟩
  · rintro ⟨m, hm, c, hc, hn⟩
    exact ⟨c, ⟨m, hm, hc⟩, hn⟩

/-- The work list starts with the nodes of the graph that are not held. -/
theorem enqueue_nodes {p : Program} {g : Supergraph} (hp : p.Layout) (hg : g.Closed p) :
    enqueue [] (g.nodes.filter (· ∉ boundaryNodes g)) = g.nodes.filter (· ∉ boundaryNodes g) :=
  Dataflow.enqueue_of_nodup ((hg.nodup_nodes hp).filter _)

/-- The entry of each of these graphs has its boundary fact, and the other nodes keep theirs. -/
def Bounded {φ : Type} (P : Problem φ) (facts : SortedMap StmtId φ) (cs : List ControlFlowGraph)
    (facts' : SortedMap StmtId φ) : Prop :=
  ∀ n, (∃ c ∈ cs, c.entry = n ∧ ∃ b, P.boundary c.method = .ok b ∧ facts'.find? n = some b) ∨
    (∀ c ∈ cs, c.entry ≠ n) ∧ facts'.find? n = facts.find? n

theorem exists_bounded {φ : Type} {P : Problem φ} {cs : List ControlFlowGraph}
    (h : ∀ c ∈ cs, ∃ b, P.boundary c.method = .ok b) (facts : SortedMap StmtId φ) :
    ∃ facts', cs.foldlM (fun m c => return m.insert c.entry (← P.boundary c.method)) facts =
      .ok facts' ∧ P.Bounded facts cs facts' := by
  refine Outcome.foldlM_induction (k := []) (Q := P.Bounded facts) ?_ ?_
  · intro k facts' hfacts c hc
    obtain ⟨b, hb⟩ := h c hc
    refine ⟨facts'.insert c.entry b, by simp [hb], fun n => ?_⟩
    rw [SortedMap.find?_insert]
    by_cases hn : n = c.entry
    · exact .inl ⟨c, List.mem_append_right _ (.head _), hn.symm, b, hb, if_pos hn⟩
    · rw [if_neg hn]
      refine (hfacts n).imp ?_ ?_
      · rintro ⟨c', hc', hrest⟩
        exact ⟨c', List.mem_append_left _ hc', hrest⟩
      · rintro ⟨hne, heq⟩
        refine ⟨fun c' hc' => ?_, heq⟩
        rcases List.mem_append.1 hc' with hc' | hc'
        · exact hne c' hc'
        · rw [List.mem_singleton.1 hc']
          exact Ne.symm hn
  · exact fun n => .inr ⟨fun _ hc => (List.not_mem_nil hc).elim, rfl⟩

/-- The entry nodes of the entry methods have their boundary facts, and all other facts are the
start fact. -/
structure Initialized {φ : Type} (P : Problem φ) (g : Supergraph) (t : Table φ) : Prop where
  covers : t.Covers g.nodes
  arriving : ∀ {n}, n ∈ g.nodes → t.arriving.find? n = some P.start
  leaving : ∀ {n}, n ∈ g.nodes → n ∉ boundaryNodes g → t.leaving.find? n = some P.start
  boundary : ∀ {m c}, m ∈ g.entryMethods → g.graph? m = some c → ∃ b, P.boundary m = .ok b ∧
    t.leaving.find? c.entry = some b

theorem initial_eq_ok {φ : Type} {P : Problem φ} {p : Program} {g : Supergraph} (hp : p.Layout)
    (hg : g.Closed p) (hb : ∀ m ∈ g.entryMethods, ∃ b, P.boundary m = .ok b) :
    ∃ t, P.initial g = .ok t ∧ P.Initialized g t := by
  let cs := g.entryMethods.filterMap g.graph?
  have hcs : ∀ c ∈ cs, ∃ m ∈ g.entryMethods, g.graph? m = some c := fun c hc =>
    List.mem_filterMap.1 hc
  let all : SortedMap StmtId φ := .ofList (g.nodes.map fun n => (n, P.start))
  have hall : ∀ n, all.find? n = if n ∈ g.nodes then some P.start else none :=
    SortedMap.find?_ofList_map (fun _ => P.start) g.nodes
  have hcsb : ∀ c ∈ cs, ∃ b, P.boundary c.method = .ok b := by
    intro c hc
    obtain ⟨m, hm, hc⟩ := hcs c hc
    rw [(Supergraph.of_graph?_eq_some hc).2]
    exact hb m hm
  obtain ⟨leaving, hfold, hleaving⟩ := exists_bounded hcsb all
  have hinit : P.initial g = .ok ⟨all, leaving⟩ := by
    have hfold : (g.entryMethods.filterMap g.graph?).foldlM
        (fun m c => return m.insert c.entry (← P.boundary c.method)) all = .ok leaving := hfold
    simp only [initial]
    rw [hfold]
    rfl
  refine ⟨_, hinit, fun n => ⟨?_, ?_⟩, fun hn => ?_, fun {n} hn hnb => ?_, fun {m c} hm hc => ?_⟩
  · simp only [hall]
    grind
  · rcases hleaving n with ⟨c, hc, rfl, b, -, hfind⟩ | ⟨-, hfind⟩
    · obtain ⟨m, hm, hc⟩ := hcs c hc
      obtain ⟨hmem, -⟩ := Supergraph.of_graph?_eq_some hc
      have hn := Supergraph.mem_nodes.2 ⟨c, hmem, hg.entry_mem hmem⟩
      simp [hfind, hn]
    · simp only [hfind, hall]
      grind
  · rw [hall, if_pos hn]
  · rcases hleaving n with ⟨c, hc, hcn, -⟩ | ⟨-, hfind⟩
    · obtain ⟨m, hm, hc⟩ := hcs c hc
      exact absurd (mem_boundaryNodes.2 ⟨m, hm, c, hc, hcn⟩) hnb
    · rw [hfind, hall, if_pos hn]
  · obtain ⟨hmem, rfl⟩ := Supergraph.of_graph?_eq_some hc
    rcases hleaving c.entry with ⟨c', hc', he, b, hb, hfind⟩ | ⟨hne, -⟩
    · obtain ⟨m, hm, hc'⟩ := hcs c' hc'
      obtain ⟨hmem', -⟩ := Supergraph.of_graph?_eq_some hc'
      cases hg.graph_unique hp hmem hmem' (hg.entry_mem hmem) (he ▸ hg.entry_mem hmem')
      exact ⟨b, hb, hfind⟩
    · exact absurd rfl (hne c (List.mem_filterMap.2 ⟨_, hm, hc⟩))

variable {φ : Type} [SemilatticeSup φ] [OrderBot φ] (P : Problem φ) (g : Supergraph)

/-- Facts are merged by least upper bounds and start at the bottom, and transfers succeed, are
monotone and do not leave the facts of bounded height. A node may read what arrives at nodes that
pass facts on. -/
structure Monotonic (H : Height φ) : Prop where
  forward : P.direction = .forward
  start_eq : P.start = ⊥
  merge_eq : ∀ x y, P.merge x y = x ⊔ y
  bot_within : H.Within ⊥
  sup_within : ∀ {x y}, H.Within x → H.Within y → H.Within (x ⊔ y)
  bound_le : H.bound ≤ P.height
  boundary : ∀ m ∈ g.entryMethods, ∃ b, P.boundary m = .ok b ∧ H.Within b
  link : ∀ l ∈ g.links, ∃ f : φ → φ, (∀ x, P.transferLink l x = .ok (f x)) ∧ Monotone f ∧
    ∀ x, H.Within x → H.Within (f x)
  node : ∀ n ∈ g.nodes, n ∉ boundaryNodes g → ∃ f : (StmtId → φ) → φ,
    (∀ A, P.transferNode (arrivals g A) n (A n) = .ok (f A)) ∧ Monotone f ∧
    (∀ A, (∀ m, H.Within (A m)) → H.Within (f A)) ∧
    ∀ A A', A n = A' n → (∀ m, n ∈ P.readers m → A m = A' m) → f A = f A'
  readers : ∀ {m n}, n ∈ P.readers m → n ∈ g.nodes
  passes : ∀ {m n}, n ∈ P.readers m → ∀ arriving x, P.transferNode arriving m x = .ok x

/-- The equations of the problem; a transfer that fails yields the least fact. -/
def system : System φ where
  nodes := g.nodes
  held := boundaryNodes g
  arrive L n := join ((g.inLinks n).map fun l => (P.transferLink l (L l.source)).toOption.getD ⊥)
  leave A n := (P.transferNode (arrivals g A) n (A n)).toOption.getD ⊥
  dependents n := g.succs n ++ P.readers n

variable {P g} {H : Height φ} {n : StmtId}

theorem arriving_eq {t : Table φ} (ht : t.Covers g.nodes) :
    t.arriving = arrivals g t.facts.arriving := by
  apply SortedMap.ext
  intro n
  rw [arrivals, SortedMap.find?_ofList_map]
  split
  · next hn => exact Table.find?_arriving ht hn
  · next hn => exact Option.not_isSome_iff_eq_none.1 (mt (ht n).1.1 hn)

theorem mem_dependents_of_mem_inLinks (hg : g.Indexed) {l : Link} (hl : l ∈ g.inLinks n) :
    n ∈ (P.system g).dependents l.source := by
  obtain ⟨hlink, rfl⟩ := hg.mem_inLinks.1 hl
  have hout : l ∈ g.outLinks l.source := hg.mem_outLinks.2 ⟨hlink, rfl⟩
  exact List.mem_append_left _ (List.mem_map_of_mem hout)

namespace Monotonic

variable (h : P.Monotonic g H)

include h

theorem carry_eq {l : Link} (hl : l ∈ g.inLinks n) : ∃ f : φ → φ,
    (∀ x, P.transferLink l x = .ok (f x)) ∧ Monotone f ∧ (∀ x, H.Within x → H.Within (f x)) ∧
      ∀ x, (P.transferLink l x).toOption.getD ⊥ = f x := by
  obtain ⟨f, hf, hmono, hwithin⟩ := h.link l (Supergraph.mem_links_of_mem_inLinks hl)
  exact ⟨f, hf, hmono, hwithin, fun x => by simp [hf, Except.toOption]⟩

theorem leave_eq (hn : (P.system g).Free n) : ∃ f : (StmtId → φ) → φ,
    (∀ A, P.transferNode (arrivals g A) n (A n) = .ok (f A)) ∧ Monotone f ∧
    (∀ A, (∀ m, H.Within (A m)) → H.Within (f A)) ∧
    (∀ A A', A n = A' n → (∀ m, n ∈ P.readers m → A m = A' m) → f A = f A') ∧
    ∀ A, (P.system g).leave A n = f A := by
  obtain ⟨f, hf, hmono, hwithin, hlocal⟩ := h.node n hn.1 hn.2
  exact ⟨f, hf, hmono, hwithin, hlocal, fun A => by simp [system, hf, Except.toOption]⟩

theorem lawful {p : Program} (hg : g.Closed p) : (P.system g).Lawful where
  closed := by
    intro m n _ hn
    rcases List.mem_append.1 hn with hn | hn
    · exact hg.succs hn
    · exact h.readers hn
  arrive_mono := by
    intro n _ L L' hle
    apply Dataflow.join_map_mono
    intro l hl
    obtain ⟨f, -, hmono, -, hcarry⟩ := h.carry_eq hl
    rw [hcarry, hcarry]
    exact hmono (hle _)
  leave_mono := by
    intro n hn A A' hle
    obtain ⟨f, -, hmono, -, -, hleave⟩ := h.leave_eq hn
    simp only [hleave]
    exact hmono hle
  arrive_local := by
    intro n L L' _ heq
    refine congrArg join (List.map_congr_left fun l hl => ?_)
    rw [heq l.source (mem_dependents_of_mem_inLinks hg.indexed hl)]
  leave_local := by
    intro n A A' hn heq hread
    obtain ⟨f, -, -, -, hlocal, hleave⟩ := h.leave_eq hn
    rw [hleave, hleave]
    refine hlocal A A' heq fun m hm => hread m (List.mem_append_right _ hm) fun A => ?_
    simp [system, h.passes hm, Except.toOption]

theorem keeps : (P.system g).Keeps H where
  arrive := by
    intro n L _ hL
    apply Height.within_join h.bot_within h.sup_within
    intro x hx
    obtain ⟨l, hl, rfl⟩ := List.mem_map.1 hx
    obtain ⟨f, -, -, hwithin, hcarry⟩ := h.carry_eq hl
    rw [hcarry]
    exact hwithin _ (hL _)
  leave := by
    intro n A hn hA
    obtain ⟨f, -, -, hwithin, -, hleave⟩ := h.leave_eq hn
    rw [hleave]
    exact hwithin _ hA

theorem arrivingAt_eq_ok {p : Program} (hg : g.Closed p) {t : Table φ} (ht : t.Covers g.nodes)
    (n : StmtId) : P.arrivingAt g t n = .ok ((P.system g).arrive t.facts.leaving n) := by
  let carry (l : Link) : φ := (P.transferLink l (t.facts.leaving l.source)).toOption.getD ⊥
  rw [arrivingAt, h.start_eq]
  refine (Outcome.foldlM_eq_ok (g := fun acc l => acc ⊔ carry l) (fun l hl acc => ?_) ⊥).trans
    (congrArg Except.ok List.foldl_map.symm)
  obtain ⟨f, hf, -, -, hcarry⟩ := h.carry_eq hl
  have hsource := (hg.links l (Supergraph.mem_links_of_mem_inLinks hl)).1
  simp only [carry, hcarry, Table.find?_leaving ht hsource, hf, Outcome.map_ok, h.merge_eq]

variable [DecidableEq φ]

/-- A visit of a node is a visit in the system. -/
theorem visit_eq_ok {p : Program} (hg : g.Closed p) {t : Table φ} (ht : t.Covers g.nodes)
    (hn : (P.system g).Free n) :
    ∃ u, P.visit g t n = .ok ⟨decide (u.facts.leaving n ≠ t.facts.leaving n), u⟩ ∧
      u.Covers g.nodes ∧ u.facts = (P.system g).visit n t.facts := by
  obtain ⟨f, hf, -, -, -, hleave⟩ := h.leave_eq hn
  let x := (P.system g).arrive t.facts.leaving n
  let A := Function.update t.facts.arriving n x
  let u := (t.setArriving n x).setLeaving n (f A)
  have hc : u.Covers g.nodes := ht.set hn.1 _ _
  have hfacts : u.facts = (P.system g).visit n t.facts :=
    Table.facts_visit _ t n rfl (by rw [hleave])
  have hu : u.facts.leaving n = f A := by
    simp [u, Table.facts, Table.setLeaving]
  have harr : (t.setArriving n x).arriving = arrivals g A := by
    have heq := arriving_eq hc
    rw [hfacts] at heq
    exact heq
  have hx : A n = x := Function.update_self ..
  refine ⟨u, ?_, hc, hfacts⟩
  have htransfer : P.transferNode (t.setArriving n x).arriving n x = .ok (f A) := by
    rw [harr, ← hf A, hx]
  have hold : (t.setArriving n x).leaving.find? n = some (t.facts.leaving n) :=
    Table.find?_leaving ht hn.1
  simp only [visit, h.arrivingAt_eq_ok hg ht n, Outcome.ok_bind]
  rw [htransfer, Outcome.ok_bind, hold, hu]
  rfl

theorem steps {p : Program} (hg : g.Closed p) :
    (P.system g).Steps (P.workStep g (boundaryNodes g)) where
  done := by
    intro s hs
    simp only [workStep, hs]
  next := by
    intro s n q hc hs hn
    obtain ⟨u, hu, hcu, hfacts⟩ := h.visit_eq_ok hg hc hn
    have hstep : ∃ t : State φ, P.workStep g (boundaryNodes g) s = .running t ∧ t.table = u ∧
        t.queue = if u.facts.leaving n ≠ s.table.facts.leaving n then
          enqueue q ((g.succs n ++ P.readers n).filter (· ∉ boundaryNodes g)) else q := by
      simp only [workStep, hs, hu]
      exact ⟨_, rfl, rfl, by simp⟩
    obtain ⟨t, ht, rfl, hq⟩ := hstep
    refine ⟨t, ht, hcu, hfacts, ?_⟩
    rw [hq, hfacts, System.requeue, ite_not]
    rfl

omit [DecidableEq φ]

/-- The least upper bound of what the links carry is what the system lets arrive. -/
theorem isLUB_arrive {p : Program} (hg : g.Closed p) {t : Table φ} (ht : t.Covers g.nodes)
    (n : StmtId) : IsLUB {y | ∃ l ∈ g.inLinks n, ∃ z, t.leaving.find? l.source = some z ∧
      P.transferLink l z = .ok y} ((P.system g).arrive t.facts.leaving n) := by
  have hset : {y | ∃ l ∈ g.inLinks n, ∃ z, t.leaving.find? l.source = some z ∧
      P.transferLink l z = .ok y} = {y | y ∈ (g.inLinks n).map fun l =>
        (P.transferLink l (t.facts.leaving l.source)).toOption.getD ⊥} := by
    ext y
    rw [Set.mem_ofPred_eq, Set.mem_ofPred_eq, List.mem_map]
    refine exists_congr fun l => and_congr_right fun hl => ?_
    obtain ⟨f, hf, -, -, -⟩ := h.carry_eq hl
    have hsource := (hg.links l (Supergraph.mem_links_of_mem_inLinks hl)).1
    simp [Table.find?_leaving ht hsource, hf, Except.toOption]
  rw [hset]
  exact Dataflow.isLUB_join _

/-- To solve the problem is to settle the free nodes and to keep the boundary facts. -/
theorem solves_iff {p : Program} (hg : g.Closed p) {t : Table φ} : P.Solves g t ↔
    t.Covers g.nodes ∧ (∀ m c, m ∈ g.entryMethods → g.graph? m = some c →
      P.boundary m = .ok (t.facts.leaving c.entry)) ∧
    ∀ n, (P.system g).Free n → (P.system g).Settled t.facts n := by
  have hentry : ∀ {m c}, g.graph? m = some c → c.entry ∈ g.nodes := by
    intro m c hc
    have hmem := (Supergraph.of_graph?_eq_some hc).1
    exact Supergraph.mem_nodes.2 ⟨c, hmem, hg.entry_mem hmem⟩
  constructor
  · intro ht
    refine ⟨ht.covers, fun m c hm hc => ?_, fun n hn => ?_⟩
    · obtain ⟨c', b, hc', hb, hfind⟩ := ht.boundary m hm
      cases hc.symm.trans hc'
      rw [Table.find?_leaving ht.covers (hentry hc), Option.some_inj] at hfind
      rw [hb, hfind]
    · obtain ⟨x, hx, hlub⟩ := ht.arriving n hn.1 hn.2
      obtain ⟨x', y, hx', hf, hy⟩ := ht.leaving n hn.1 hn.2
      cases hx.symm.trans hx'
      rw [Table.find?_arriving ht.covers hn.1, Option.some_inj] at hx
      rw [Table.find?_leaving ht.covers hn.1, Option.some_inj] at hy
      refine ⟨?_, ?_⟩
      · rw [hx]
        exact hlub.unique (h.isLUB_arrive hg ht.covers n)
      · rw [arriving_eq ht.covers] at hf
        simp [hy, hx, system, hf, Except.toOption]
  · rintro ⟨hc, hbound, hsettled⟩
    refine ⟨hc, fun m hm => ?_, fun n hn hnb => ?_, fun n hn hnb => ?_⟩
    · obtain ⟨c, hgraph⟩ := hg.graph?_eq_some hm
      exact ⟨c, _, hgraph, hbound m c hm hgraph, Table.find?_leaving hc (hentry hgraph)⟩
    · refine ⟨_, Table.find?_arriving hc hn, ?_⟩
      rw [(hsettled n ⟨hn, hnb⟩).1]
      exact h.isLUB_arrive hg hc n
    · obtain ⟨f, hf, -, -, -, hleave⟩ := h.leave_eq ⟨hn, hnb⟩
      refine ⟨_, f t.facts.arriving, Table.find?_arriving hc hn, ?_, ?_⟩
      · rw [arriving_eq hc, hf]
      · rw [Table.find?_leaving hc hn, (hsettled n ⟨hn, hnb⟩).2, hleave]

section

variable {t₀ : Table φ} (ht₀ : P.Initialized g t₀)
include ht₀

theorem arriving_initial : t₀.facts.arriving = ⊥ := by
  funext n
  by_cases hn : n ∈ g.nodes
  · simp [Table.facts, ht₀.arriving hn, h.start_eq]
  · simp [Table.facts, Option.not_isSome_iff_eq_none.1 (mt (ht₀.covers n).1.1 hn)]

theorem leaving_initial (hnb : n ∉ boundaryNodes g) : t₀.facts.leaving n = ⊥ := by
  by_cases hn : n ∈ g.nodes
  · simp [Table.facts, ht₀.leaving hn hnb, h.start_eq]
  · simp [Table.facts, Option.not_isSome_iff_eq_none.1 (mt (ht₀.covers n).2.1 hn)]

theorem boundary_initial {m : MethodId} {c : ControlFlowGraph} (hm : m ∈ g.entryMethods)
    (hgraph : g.graph? m = some c) :
    P.boundary m = .ok (t₀.facts.leaving c.entry) ∧ H.Within (t₀.facts.leaving c.entry) := by
  obtain ⟨b, hb, hfind⟩ := ht₀.boundary hm hgraph
  obtain ⟨b', hb', hwithin⟩ := h.boundary m hm
  cases hb.symm.trans hb'
  simpa [Table.facts, hfind] using ⟨hb, hwithin⟩

theorem approach_initial : (P.system g).Approach H t₀.facts t₀.facts := by
  have hbot := h.arriving_initial ht₀
  refine ⟨⟨fun _ => ?_, fun hn => ?_, fun hn _ => ?_⟩, fun n => ⟨?_, ?_⟩, fun _ _ => ⟨rfl, rfl⟩,
    fun _ _ hle => hle⟩
  · rw [hbot]
    exact bot_le
  · rw [h.leaving_initial ht₀ hn.2]
    exact bot_le
  · rw [h.leaving_initial ht₀ hn.2, hbot]
    rfl
  · rw [hbot]
    exact h.bot_within
  · by_cases hn : n ∈ boundaryNodes g
    · obtain ⟨m, hm, c, hgraph, rfl⟩ := mem_boundaryNodes.1 hn
      exact (h.boundary_initial ht₀ hm hgraph).2
    · rw [h.leaving_initial ht₀ hn]
      exact h.bot_within

/-- The initial facts are below all facts that keep the boundary facts. -/
theorem initial_le {y : Facts φ} (hy : ∀ m c b, m ∈ g.entryMethods → g.graph? m = some c →
    P.boundary m = .ok b → b ≤ y.leaving c.entry) : t₀.facts ≤ y := by
  refine ⟨?_, fun n => ?_⟩
  · rw [h.arriving_initial ht₀]
    exact bot_le
  · by_cases hn : n ∈ boundaryNodes g
    · obtain ⟨m, hm, c, hgraph, rfl⟩ := mem_boundaryNodes.1 hn
      exact hy m c _ hm hgraph (h.boundary_initial ht₀ hm hgraph).1
    · rw [h.leaving_initial ht₀ hn]
      exact bot_le

/-- The initial facts are below every solution, and a solution bounds the equations. -/
theorem bounds_of_solves {p : Program} (hg : g.Closed p) {u : Table φ} (hu : P.Solves g u) :
    (P.system g).Bounds u.facts ∧ t₀.facts ≤ u.facts := by
  obtain ⟨-, hboundary, hsettled⟩ := (h.solves_iff hg).1 hu
  refine ⟨fun n hn => ?_, h.initial_le ht₀ fun m c b hm hgraph hb => ?_⟩
  · obtain ⟨ha, hl⟩ := hsettled n hn
    exact ⟨ha.ge, hl.ge⟩
  · exact (Except.ok.inj (hb.symm.trans (hboundary m c hm hgraph))).le

end

variable [DecidableEq φ]

/-- The work list solves the system from the initial facts. -/
theorem exists_solved {p : Program} (hp : p.Layout) (hg : g.Closed p) : ∃ t₀ t,
    P.Initialized g t₀ ∧ P.solve g = .ok t ∧ t.Covers g.nodes ∧
      (P.system g).Solved t₀.facts t.facts := by
  obtain ⟨t₀, hinit, ht₀⟩ := initial_eq_ok hp hg fun m hm =>
    (h.boundary m hm).imp fun _ => And.left
  have hnodup := (hg.nodup_nodes hp).filter (· ∉ boundaryNodes g)
  have hready : (P.system g).Ready H t₀.facts t₀.facts (g.nodes.filter (· ∉ boundaryNodes g)) := by
    refine ⟨h.approach_initial ht₀, hnodup, fun n hn => ?_, fun n hn hq => ?_⟩
    · simpa [System.Free, system] using hn
    · exact absurd (List.mem_filter.2 ⟨hn.1, decide_eq_true hn.2⟩) hq
  have hrounds : g.nodes.length + H.bound + 3 ≤ P.rounds g := by
    have hle := h.bound_le
    unfold rounds
    omega
  obtain ⟨s, hs, hsc, hsolved⟩ := (h.steps hg).iterate (h.lawful hg) h.keeps
    (s := { table := t₀, queue := g.nodes.filter (· ∉ boundaryNodes g) }) ht₀.covers hready hrounds
  refine ⟨t₀, s.table, ht₀, ?_, hsc, hsolved⟩
  simp only [solve, solveCounting, h.forward, reduceCtorEq, if_false, hinit, Outcome.pure_eq,
    Outcome.ok_bind, enqueue_nodes hp hg, hs, Outcome.map_ok]

/-- What the solver finds is below all facts that bound the equations and the boundary facts. -/
theorem solve_le {p : Program} (hp : p.Layout) (hg : g.Closed p) {t : Table φ}
    (ht : P.solve g = .ok t) {y : Facts φ} (hy : (P.system g).Bounds y)
    (hb : ∀ m c b, m ∈ g.entryMethods → g.graph? m = some c → P.boundary m = .ok b →
      b ≤ y.leaving c.entry) : t.facts ≤ y := by
  obtain ⟨t₀, u, ht₀, hu, -, hsolved⟩ := h.exists_solved hp hg
  cases ht.symm.trans hu
  exact hsolved.least y hy (h.initial_le ht₀ hb)

/-- Nothing arrives at the entry node of an entry method. -/
theorem arriving_of_mem_boundaryNodes {p : Program} (hp : p.Layout) (hg : g.Closed p) {t : Table φ}
    (ht : P.solve g = .ok t) (hn : n ∈ boundaryNodes g) : t.facts.arriving n = ⊥ := by
  obtain ⟨t₀, u, ht₀, hu, -, hsolved⟩ := h.exists_solved hp hg
  cases ht.symm.trans hu
  rw [(hsolved.kept n fun hf => hf.2 hn).1, h.arriving_initial ht₀]
  rfl

/-- The work list finds the least solution. -/
theorem solve_eq_ok {p : Program} (hp : p.Layout) (hg : g.Closed p) :
    ∃ t, P.solve g = .ok t ∧ IsLeast {t | P.Solves g t} t := by
  obtain ⟨t₀, t, ht₀, ht, hc, hsolved⟩ := h.exists_solved hp hg
  refine ⟨t, ht, (h.solves_iff hg).2 ⟨hc, fun m c hm hgraph => ?_, hsolved.settled⟩, fun u hu => ?_⟩
  · have hn : ¬ (P.system g).Free c.entry := fun hn =>
      hn.2 (mem_boundaryNodes.2 ⟨m, hm, c, hgraph, rfl⟩)
    rw [(hsolved.kept _ hn).2]
    exact (h.boundary_initial ht₀ hm hgraph).1
  · obtain ⟨hbounds, hle⟩ := h.bounds_of_solves ht₀ hg hu
    exact hsolved.least u.facts hbounds hle

end Monotonic

section Failure

variable {φ : Type} {P : Problem φ} {p : Program} {g : Supergraph}

theorem arrivingAt_ok (h : ∀ l ∈ g.links, ∀ x, ∃ y, P.transferLink l x = .ok y) (t : Table φ)
    (n : StmtId) : ∃ x, P.arrivingAt g t n = .ok x := by
  refine Exists.imp (fun _ => And.left)
    (Outcome.foldlM_induction (k := []) (Q := fun _ _ => True) ?_ trivial)
  intro _ acc _ l hl
  cases t.leaving.find? l.source with
  | none => exact ⟨acc, rfl, trivial⟩
  | some x =>
    obtain ⟨y, hy⟩ := h l (Supergraph.mem_links_of_mem_inLinks hl) x
    exact ⟨P.merge acc y, by simp [hy], trivial⟩

theorem transfer_ok [SemilatticeSup φ] [OrderBot φ]
    (hlink : ∀ l ∈ g.links, ∀ x, ∃ y, P.transferLink l x = .ok y) {t : Table φ}
    (ht : t.Covers g.nodes) {m : StmtId} (hm : m ∈ g.nodes)
    (h : ∀ A, ∃ y, P.transferNode (arrivals g A) m (A m) = .ok y) :
    ∃ x y, P.arrivingAt g t m = .ok x ∧
      P.transferNode (t.setArriving m x).arriving m x = .ok y := by
  obtain ⟨x, hx⟩ := arrivingAt_ok hlink t m
  have hset := ht.set hm x x
  have hfacts : ((t.setArriving m x).setLeaving m x).facts.arriving m = x := by
    simp [Table.facts, Table.setArriving, Table.setLeaving]
  obtain ⟨y, hy⟩ := h ((t.setArriving m x).setLeaving m x).facts.arriving
  rw [hfacts, ← arriving_eq hset] at hy
  exact ⟨x, y, hx, hy⟩

/-- The work list stops at the first node whose transfer always fails. -/
theorem solve_eq_error [SemilatticeSup φ] [OrderBot φ] [DecidableEq φ] (hp : p.Layout)
    (hg : g.Closed p) (hd : P.direction = .forward)
    (hb : ∀ m ∈ g.entryMethods, ∃ b, P.boundary m = .ok b)
    (hlink : ∀ l ∈ g.links, ∀ x, ∃ y, P.transferLink l x = .ok y) {l l' : List StmtId} {n : StmtId}
    {e : AnalysisError} (hnodes : g.nodes = l ++ n :: l')
    (hl : ∀ m ∈ l, m ∉ boundaryNodes g → ∀ A, ∃ y, P.transferNode (arrivals g A) m (A m) = .ok y)
    (hnb : n ∉ boundaryNodes g) (hn : ∀ arriving x, P.transferNode arriving n x = .error e) :
    P.solve g = .error e := by
  obtain ⟨t, hinit, ht⟩ := initial_eq_ok hp hg hb
  have hnodup := hg.nodup_nodes hp
  have horder : g.nodes.filter (· ∉ boundaryNodes g) =
      l.filter (· ∉ boundaryNodes g) ++ n :: l'.filter (· ∉ boundaryNodes g) := by
    rw [hnodes, List.filter_append, List.filter_cons_of_pos (by simpa using hnb)]
  have hnl : n ∉ l.filter (· ∉ boundaryNodes g) := fun hmem =>
    (List.nodup_append.1 (hnodes ▸ hnodup)).2.2 n (List.mem_filter.1 hmem).1 n (.head _) rfl
  have hrounds : (l.filter (· ∉ boundaryNodes g)).length < P.rounds g := by
    have hle := List.length_filter_le (· ∉ boundaryNodes g) l
    have hlen : l.length ≤ g.nodes.length := by
      rw [hnodes, List.length_append]
      omega
    unfold rounds
    omega
  have hfail : Progress.iterate (P.workStep g (boundaryNodes g)) (P.rounds g)
      { table := t, queue := g.nodes.filter (· ∉ boundaryNodes g) } = .finished (.error e) := by
    refine Dataflow.iterate_error (I := fun s => s.table.Covers g.nodes) ?_ ?_ hnl ht.covers
      horder hrounds
    · intro s m q hs hq hm
      obtain ⟨hm, hmb⟩ := List.mem_filter.1 hm
      have hmem : m ∈ g.nodes := hnodes ▸ List.mem_append_left _ hm
      obtain ⟨x, y, hx, hy⟩ := transfer_ok hlink hs hmem (hl m hm (of_decide_eq_true hmb))
      obtain ⟨more, hmore⟩ := Dataflow.enqueue_eq_append q
        ((g.succs m ++ P.readers m).filter (· ∉ boundaryNodes g))
      simp only [workStep, hq, visit, hx, hy, Outcome.ok_bind, Outcome.pure_eq, hmore]
      split
      · exact ⟨_, more, rfl, hs.set hmem x y, rfl⟩
      · exact ⟨_, [], rfl, hs.set hmem x y, (List.append_nil q).symm⟩
    · intro s q _ hq
      obtain ⟨x, hx⟩ := arrivingAt_ok hlink s.table n
      simp only [workStep, hq, visit, hx, hn, Outcome.ok_bind, Outcome.error_bind]
  simp only [solve, solveCounting, hd, reduceCtorEq, if_false, hinit, Outcome.pure_eq,
    Outcome.ok_bind, enqueue_nodes hp hg, hfail, Outcome.error_bind, Outcome.map_error]

end Failure

end ProgramFlow.Interprocedural.Problem
