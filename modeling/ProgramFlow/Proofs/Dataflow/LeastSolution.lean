import ProgramFlow.Proofs.Dataflow.Solution
import ProgramFlow.Proofs.Graph.ControlFlow
/-!
Dataflow problems in one method as systems of equations, and tables that solve them. The system of
a problem with monotone transfers is lawful, and what solves it above the initial table is the
least solution of the problem.
-/
namespace ProgramFlow.Dataflow

namespace Direction

variable {d : Direction} {g : ControlFlowGraph}

theorem boundaryNode_mem (hg : g.Closed) : d.boundaryNode g ∈ g.nodes := by
  cases d
  · exact hg.entry
  · exact hg.exit

theorem mem_nodes_of_mem_sinks (hg : g.Closed) {m n : StmtId} (hn : n ∈ d.sinks g m) :
    n ∈ g.nodes := by
  cases d
  · exact hg.succs hn
  · exact hg.preds hn

theorem mem_nodes_of_mem_sources (hg : g.Closed) {m n : StmtId} (hn : n ∈ d.sources g m) :
    n ∈ g.nodes := by
  cases d
  · exact hg.preds hn
  · exact hg.succs hn

theorem mem_sources_iff_mem_sinks (hg : g.Closed) {m n : StmtId} :
    m ∈ d.sources g n ↔ n ∈ d.sinks g m := by
  cases d with
  | forward => exact hg.indexed.mem_preds_iff_mem_succs
  | backward => exact hg.indexed.mem_preds_iff_mem_succs.symm

end Direction

namespace Problem

theorem initial_eq_ok {φ : Type} {P : Problem φ} {g : ControlFlowGraph} (hg : g.Closed) {b : φ}
    (hb : P.boundary g = .ok b) : ∃ t, P.initial g = .ok t ∧ t.Covers g.nodes ∧ ∀ n ∈ g.nodes,
      t.arriving.find? n = some P.start ∧
      t.leaving.find? n = some (if n = P.direction.boundaryNode g then b else P.start) := by
  let all : SortedMap StmtId φ := .ofList (g.nodes.map fun n => (n, P.start))
  have hall : ∀ n, all.find? n = if n ∈ g.nodes then some P.start else none :=
    SortedMap.find?_ofList_map (fun _ => P.start) g.nodes
  refine ⟨⟨all, all.insert (P.direction.boundaryNode g) b⟩, ?_, ?_, fun n hn => ⟨?_, ?_⟩⟩
  · simp only [initial, hb, Outcome.ok_bind]
    rfl
  · intro n
    simp only [SortedMap.find?_insert, hall]
    have hmem := Direction.boundaryNode_mem (d := P.direction) hg
    grind
  · rw [hall, if_pos hn]
  · rw [SortedMap.find?_insert, hall, if_pos hn]
    split <;> rfl

section

variable {φ : Type} [LE φ] (P : Problem φ) (g : ControlFlowGraph)

/-- The table satisfies the equations of the problem: the boundary node carries the boundary fact,
what arrives at another node is the least upper bound of what leaves its sources, and what leaves
it is the transfer of that. -/
structure Solves (t : Table φ) : Prop where
  covers : t.Covers g.nodes
  boundary : ∃ b, P.boundary g = .ok b ∧ t.leaving.find? (P.direction.boundaryNode g) = some b
  arriving : ∀ n ∈ P.direction.order g, ∃ x, t.arriving.find? n = some x ∧
    IsLUB {y | ∃ s ∈ P.direction.sources g n, t.leaving.find? s = some y} x
  leaving : ∀ n ∈ P.direction.order g, ∃ x y, t.arriving.find? n = some x ∧
    P.transfer n x = .ok y ∧ t.leaving.find? n = some y

variable {P g}

/-- What leaves a source of a node is below what arrives at the node. -/
theorem Solves.le_arriving {t : Table φ} (h : P.Solves g t) {m n : StmtId}
    (hm : m ∈ P.direction.sources g n) (hn : n ∈ P.direction.order g) {y : φ}
    (hy : t.leaving.find? m = some y) : ∃ x, t.arriving.find? n = some x ∧ y ≤ x := by
  obtain ⟨x, hx, hlub⟩ := h.arriving n hn
  exact ⟨x, hx, hlub.1 ⟨m, hm, hy⟩⟩

end

variable {φ : Type} [SemilatticeSup φ] [OrderBot φ] (P : Problem φ) (g : ControlFlowGraph)

/-- Facts are merged by least upper bounds and start at the bottom, and transfers succeed, are
monotone and do not leave the facts of bounded height. -/
structure Monotonic (H : Height φ) : Prop where
  start_eq : P.start = ⊥
  merge_eq : ∀ x y, P.merge x y = x ⊔ y
  bot_within : H.Within ⊥
  sup_within : ∀ {x y}, H.Within x → H.Within y → H.Within (x ⊔ y)
  bound_le : H.bound ≤ P.height
  boundary : ∃ b, P.boundary g = .ok b ∧ H.Within b
  transfer : ∀ n ∈ P.direction.order g, ∃ f : φ → φ, (∀ x, P.transfer n x = .ok (f x)) ∧
    Monotone f ∧ ∀ x, H.Within x → H.Within (f x)

/-- The equations of the problem; the fact that leaves a node whose transfer fails is the least. -/
def system : System φ where
  nodes := g.nodes
  held := [P.direction.boundaryNode g]
  arrive L n := join ((P.direction.sources g n).map L)
  leave A n := (P.transfer n (A n)).toOption.getD ⊥
  dependents := P.direction.sinks g

variable {P g} {H : Height φ} {n : StmtId}

theorem free_iff : (P.system g).Free n ↔ n ∈ P.direction.order g := by
  rw [Direction.mem_order]
  simp [System.Free, system]

/-- The least upper bound of what leaves the sources is what the system lets arrive. -/
theorem isLUB_arrive (hg : g.Closed) {t : Table φ} (ht : t.Covers g.nodes) (n : StmtId) :
    IsLUB {y | ∃ s ∈ P.direction.sources g n, t.leaving.find? s = some y}
      ((P.system g).arrive t.facts.leaving n) := by
  have hset : {y | ∃ s ∈ P.direction.sources g n, t.leaving.find? s = some y} =
      {y | y ∈ (P.direction.sources g n).map t.facts.leaving} := by
    ext y
    rw [Set.mem_ofPred_eq, Set.mem_ofPred_eq, List.mem_map]
    refine exists_congr fun s => and_congr_right fun hs => ?_
    rw [Table.find?_leaving ht (Direction.mem_nodes_of_mem_sources hg hs), Option.some_inj]
  rw [hset]
  exact isLUB_join _

theorem isLeast_unique {t u : Table φ} (ht : IsLeast {t | P.Solves g t} t)
    (hu : IsLeast {t | P.Solves g t} u) : t = u :=
  ht.1.covers.eq_of_facts_le hu.1.covers (ht.2 hu.1) (hu.2 ht.1)

namespace Monotonic

variable (h : P.Monotonic g H)

include h

theorem leave_eq (hn : n ∈ P.direction.order g) : ∃ f : φ → φ,
    (∀ x, P.transfer n x = .ok (f x)) ∧ Monotone f ∧ (∀ x, H.Within x → H.Within (f x)) ∧
      ∀ A, (P.system g).leave A n = f (A n) := by
  obtain ⟨f, hf, hmono, hwithin⟩ := h.transfer n hn
  exact ⟨f, hf, hmono, hwithin, fun A => by simp [system, hf, Except.toOption]⟩

theorem lawful (hg : g.Closed) : (P.system g).Lawful where
  closed := fun _ hn => Direction.mem_nodes_of_mem_sinks hg hn
  arrive_mono := fun _ _ _ hle => join_map_mono fun s _ => hle s
  leave_mono := by
    intro n hn A A' hle
    obtain ⟨f, -, hmono, -, hleave⟩ := h.leave_eq (free_iff.1 hn)
    simp only [hleave]
    exact hmono (hle n)
  arrive_local := by
    intro n L L' _ heq
    have hmap : (P.direction.sources g n).map L = (P.direction.sources g n).map L' :=
      List.map_congr_left fun s hs => heq s ((Direction.mem_sources_iff_mem_sinks hg).1 hs)
    simp only [system, hmap]
  leave_local := by
    intro n A A' _ heq _
    simp only [system, heq]

theorem keeps : (P.system g).Keeps H where
  arrive := by
    intro n L _ hL
    apply Height.within_join h.bot_within h.sup_within
    intro x hx
    obtain ⟨s, -, rfl⟩ := List.mem_map.1 hx
    exact hL s
  leave := by
    intro n A hn hA
    obtain ⟨f, -, -, hwithin, hleave⟩ := h.leave_eq (free_iff.1 hn)
    rw [hleave]
    exact hwithin _ (hA n)

/-- Passing over a source without a fact is merging the least fact. -/
theorem arrivingAt_eq (t : Table φ) (n : StmtId) :
    P.arrivingAt g t n = (P.system g).arrive t.facts.leaving n := by
  rw [arrivingAt, h.start_eq]
  refine (List.foldl_ext _ (fun acc s => acc ⊔ t.facts.leaving s) _ fun acc s _ => ?_).trans
    List.foldl_map.symm
  cases hs : t.leaving.find? s <;> simp [Table.facts, hs, h.merge_eq]

/-- A visit of a node is a visit in the system. -/
theorem visit_eq_ok [DecidableEq φ] {t : Table φ} (ht : t.Covers g.nodes)
    (hn : n ∈ P.direction.order g) :
    ∃ u, P.visit g t n = .ok ⟨decide (u.facts.leaving n ≠ t.facts.leaving n), u⟩ ∧
      u.Covers g.nodes ∧ u.facts = (P.system g).visit n t.facts := by
  have hmem := (Direction.mem_order.1 hn).1
  obtain ⟨f, hf, -, -, hleave⟩ := h.leave_eq hn
  let x := P.arrivingAt g t n
  let u := (t.setArriving n x).setLeaving n (f x)
  have hfacts : u.facts = (P.system g).visit n t.facts :=
    Table.facts_visit _ t n (h.arrivingAt_eq t n) (by rw [hleave, Function.update_self])
  have hx : u.facts.leaving n = f x := by
    simp [u, Table.facts, Table.setLeaving]
  refine ⟨u, ?_, ht.set hmem _ _, hfacts⟩
  simp only [visit, Table.find?_leaving ht hmem, hf, Outcome.ok_bind, hx]
  rfl

theorem initial_facts {b : φ} {t : Table φ} (hc : t.Covers g.nodes)
    (ht : ∀ n ∈ g.nodes, t.arriving.find? n = some P.start ∧
      t.leaving.find? n = some (if n = P.direction.boundaryNode g then b else P.start))
    (hg : g.Closed) : t.facts.arriving = ⊥ ∧
      t.facts.leaving = Function.update ⊥ (P.direction.boundaryNode g) b := by
  constructor <;> funext n
  · by_cases hn : n ∈ g.nodes
    · simp [Table.facts, (ht n hn).1, h.start_eq]
    · simp [Table.facts, Option.not_isSome_iff_eq_none.1 (mt (hc n).1.1 hn)]
  · rw [Function.update_apply]
    by_cases hn : n ∈ g.nodes
    · simp [Table.facts, (ht n hn).2, h.start_eq]
    · have hne : n ≠ P.direction.boundaryNode g := fun he =>
        hn (he ▸ Direction.boundaryNode_mem hg)
      simp [Table.facts, Option.not_isSome_iff_eq_none.1 (mt (hc n).2.1 hn), hne]

theorem approach {b : φ} (hb : H.Within b) {x : Facts φ} (harr : x.arriving = ⊥)
    (hleave : x.leaving = Function.update ⊥ (P.direction.boundaryNode g) b) :
    (P.system g).Approach H x x where
  rising := by
    have hfree : ∀ {n}, (P.system g).Free n → x.leaving n = ⊥ := by
      intro n hn
      rw [hleave, Function.update_of_ne (Direction.mem_order.1 (free_iff.1 hn)).2]
      rfl
    refine ⟨fun _ => ?_, fun hn => ?_, fun hn _ => ?_⟩
    · rw [harr]
      exact bot_le
    · rw [hfree hn]
      exact bot_le
    · rw [hfree hn, harr]
      rfl
  inHeight := by
    intro n
    rw [harr, hleave, Function.update_apply]
    refine ⟨h.bot_within, ?_⟩
    split
    · exact hb
    · exact h.bot_within
  kept := fun _ _ => ⟨rfl, rfl⟩
  least := fun _ _ hle => hle

/-- To solve the problem is to settle the free nodes and to keep the boundary fact. -/
theorem solves_iff (hg : g.Closed) {t : Table φ} : P.Solves g t ↔ t.Covers g.nodes ∧
    P.boundary g = .ok (t.facts.leaving (P.direction.boundaryNode g)) ∧
      ∀ n ∈ P.direction.order g, (P.system g).Settled t.facts n := by
  have hb := Direction.boundaryNode_mem (d := P.direction) hg
  constructor
  · intro ht
    refine ⟨ht.covers, ?_, fun n hn => ?_⟩
    · obtain ⟨b, hok, hfind⟩ := ht.boundary
      rw [Table.find?_leaving ht.covers hb, Option.some_inj] at hfind
      rw [hok, hfind]
    · have hmem := (Direction.mem_order.1 hn).1
      obtain ⟨x, hx, hlub⟩ := ht.arriving n hn
      obtain ⟨x', y, hx', hf, hy⟩ := ht.leaving n hn
      cases hx.symm.trans hx'
      rw [Table.find?_arriving ht.covers hmem, Option.some_inj] at hx
      rw [Table.find?_leaving ht.covers hmem, Option.some_inj] at hy
      refine ⟨?_, ?_⟩
      · rw [hx]
        exact hlub.unique (isLUB_arrive hg ht.covers n)
      · simp [hy, hx, system, hf, Except.toOption]
  · rintro ⟨hc, hbound, hsettled⟩
    refine ⟨hc, ⟨_, hbound, Table.find?_leaving hc hb⟩, fun n hn => ?_, fun n hn => ?_⟩
    · refine ⟨_, Table.find?_arriving hc (Direction.mem_order.1 hn).1, ?_⟩
      rw [(hsettled n hn).1]
      exact isLUB_arrive hg hc n
    · have hmem := (Direction.mem_order.1 hn).1
      obtain ⟨f, hf, -, -, hleave⟩ := h.leave_eq hn
      refine ⟨_, _, Table.find?_arriving hc hmem, hf _, ?_⟩
      rw [Table.find?_leaving hc hmem, (hsettled n hn).2, hleave]

/-- The initial facts are below every solution, and a solution bounds the equations. -/
theorem bounds_of_solves (hg : g.Closed) {b : φ} {t₀ u : Table φ} (hb : P.boundary g = .ok b)
    (harr : t₀.facts.arriving = ⊥)
    (hleave : t₀.facts.leaving = Function.update ⊥ (P.direction.boundaryNode g) b)
    (hu : P.Solves g u) : (P.system g).Bounds u.facts ∧ t₀.facts ≤ u.facts := by
  obtain ⟨-, hbound, hsettled⟩ := (h.solves_iff hg).1 hu
  refine ⟨fun n hn => ?_, ?_, fun n => ?_⟩
  · obtain ⟨ha, hl⟩ := hsettled n (free_iff.1 hn)
    exact ⟨ha.ge, hl.ge⟩
  · rw [harr]
    exact bot_le
  · rw [hleave, Function.update_apply]
    split
    · next hn =>
      rw [hn]
      exact (Except.ok.inj (hb.symm.trans hbound)).le
    · exact bot_le

/-- What solves the system above the initial facts is the least solution of the problem. -/
theorem isLeast_of_solved (hg : g.Closed) {b : φ} {t₀ t : Table φ} (hb : P.boundary g = .ok b)
    (harr : t₀.facts.arriving = ⊥)
    (hleave : t₀.facts.leaving = Function.update ⊥ (P.direction.boundaryNode g) b)
    (hc : t.Covers g.nodes) (ht : (P.system g).Solved t₀.facts t.facts) :
    IsLeast {t | P.Solves g t} t := by
  refine ⟨(h.solves_iff hg).2 ⟨hc, ?_, fun n hn => ht.settled n (free_iff.2 hn)⟩, fun u hu => ?_⟩
  · have hheld : ¬ (P.system g).Free (P.direction.boundaryNode g) := by
      rw [free_iff, Direction.mem_order]
      exact fun hmem => hmem.2 rfl
    rw [(ht.kept _ hheld).2, hleave, Function.update_self, hb]
  · obtain ⟨hbounds, hle⟩ := h.bounds_of_solves hg hb harr hleave hu
    exact ht.least u.facts hbounds hle

end Monotonic

end Problem

end ProgramFlow.Dataflow
