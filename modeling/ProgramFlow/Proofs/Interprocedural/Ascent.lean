import ProgramFlow.Proofs.Dataflow.Ascent
import ProgramFlow.Proofs.Interprocedural.Constants
/-!
Runs of the interprocedural solver, one visit after the other. As in one method facts only rise and
stay below every solution, and a node that does not wait on the work list satisfies its equations,
also where it reads facts that arrive at nodes it has no link from.
-/
namespace ProgramFlow

namespace Interprocedural.Problem

open Dataflow (Height State System Table enqueue mem_enqueue nodup_enqueue)

section Runs

variable {φ : Type} [DecidableEq φ] (P : Problem φ) (g : Supergraph)

/-- The states of a run between its iterations. -/
inductive Reached : State φ → Prop
  | start {t} (h : P.initial g = .ok t) :
    Reached { table := t, queue := enqueue [] (g.nodes.filter (· ∉ boundaryNodes g)) }
  | step {s s'} (h : Reached s) (hs : P.workStep g (boundaryNodes g) s = .running s') : Reached s'

variable {P g}

/-- What the solver finds is the table with which its run ends. -/
theorem exists_reached_of_solve {t : Table φ} (h : P.solve g = .ok t) :
    ∃ s r, P.Reached g s ∧ P.workStep g (boundaryNodes g) s = .finished (.ok r) ∧ r.table = t := by
  obtain ⟨a, hsolve, ha⟩ := Outcome.map_eq_ok.1 h
  unfold solveCounting at hsolve
  split at hsolve
  · cases hsolve
  obtain ⟨t₀, hinit, hsolve⟩ := Outcome.bind_eq_ok.1 hsolve
  simp only at hsolve
  split at hsolve
  · next r hr =>
    obtain ⟨s', hs', hsolve⟩ := Outcome.bind_eq_ok.1 hsolve
    subst hs'
    obtain ⟨s, hs, hend⟩ := Progress.exists_last (P := P.Reached g) (fun _ _ => .step)
      (.start hinit) hr
    cases hsolve
    exact ⟨s, s', hs, hend, ha⟩
  · cases hsolve

theorem workStep_eq_running {boundary : List StmtId} {s s' : State φ}
    (h : P.workStep g boundary s = .running s') :
    ∃ n q c, s.queue = n :: q ∧ P.visit g s.table n = .ok c ∧ s'.table = c.value ∧
      s'.queue = if c.changed then
        enqueue q ((g.succs n ++ P.readers n).filter (· ∉ boundary)) else q := by
  cases hq : s.queue with
  | nil => simp only [workStep, hq, reduceCtorEq] at h
  | cons n q =>
    simp only [workStep, hq] at h
    split at h
    · cases h
    · next c u hv =>
      cases h
      exact ⟨n, q, ⟨c, u⟩, rfl, hv, rfl, rfl⟩

end Runs

section Equations

variable {φ : Type} [PartialOrder φ] [OrderBot φ] (P : Problem φ) (g : Supergraph)

/-- The node satisfies its equations: the least upper bound of what its links carry arrives at it,
and its transfer, which may read what arrives elsewhere, leaves it. -/
def Satisfied (t : Table φ) (n : StmtId) : Prop :=
  ∃ x y, t.arriving.find? n = some x ∧
    IsLUB {z | ∃ l ∈ g.inLinks n, ∃ w, t.leaving.find? l.source = some w ∧
      P.transferLink l w = .ok z} x ∧
    P.transferNode t.arriving n x = .ok y ∧ t.leaving.find? n = some y

/-- The problem with the least fact in place of a transfer at a node that fails. -/
def completed : Problem φ :=
  { P with transferNode := fun arriving n x => .ok ((P.transferNode arriving n x).toOption.getD ⊥) }

/-- What a visit makes of a table: the facts of the node are computed anew and do not fall, none
exceeds a solution, of the problem or of the completed one, and a change is reported if another
fact leaves the node. -/
structure Raises (t : Table φ) (n : StmtId) (c : Change (Table φ)) : Prop where
  covers : t.Covers g.nodes ∧ c.value.Covers g.nodes
  rises : t ≤ c.value
  below : ∀ u, P.Solves g u ∨ P.completed.Solves g u → c.value ≤ u
  computed : ∃ x y, c.value.arriving.find? n = some x ∧
    IsLUB {z | ∃ l ∈ g.inLinks n, ∃ w, t.leaving.find? l.source = some w ∧
      P.transferLink l w = .ok z} x ∧
    P.transferNode c.value.arriving n x = .ok y ∧ c.value.leaving.find? n = some y
  changed : c.changed = true ↔ c.value.leaving.find? n ≠ t.leaving.find? n

/-- In a run each visit raises facts, or it ends the run at a node whose transfer never succeeds, and
between two iterations the nodes that are neither entries of entry methods nor on the work list
satisfy their equations. -/
structure Ascends [DecidableEq φ] : Prop where
  starts : ∃ t, P.initial g = .ok t
  visits : ∀ {s n q}, P.Reached g s → s.queue = n :: q →
    (∃ c, P.visit g s.table n = .ok c ∧ P.Raises g s.table n c) ∨
      ∃ e, P.visit g s.table n = .error e ∧ ∀ arriving x, P.transferNode arriving n x = .error e
  settled : ∀ {s n}, P.Reached g s → n ∈ g.nodes → n ∉ boundaryNodes g → n ∉ s.queue →
    P.Satisfied g s.table n
  answers : ∀ {t}, P.solve g = .ok t → ∃ s r, P.Reached g s ∧
    P.workStep g (boundaryNodes g) s = .finished (.ok r) ∧ r.table = t

end Equations

variable {φ : Type} [SemilatticeSup φ] [OrderBot φ] {P : Problem φ} {g : Supergraph}
  {H : Height φ}

theorem Solves.completed {u : Table φ} (h : P.Solves g u) : P.completed.Solves g u where
  covers := h.covers
  boundary := h.boundary
  arriving := h.arriving
  leaving := by
    intro n hn hb
    obtain ⟨x, y, hx, hf, hy⟩ := h.leaving n hn hb
    exact ⟨x, y, hx, by simp [Problem.completed, hf, Except.toOption], hy⟩

theorem leave_eq_of_transfer {n : StmtId} {A : StmtId → φ} {y : φ}
    (hy : P.transferNode (arrivals g A) n (A n) = .ok y) : (P.system g).leave A n = y := by
  simp [system, hy, Except.toOption]

/-- The transfer of the node succeeds always or never; where it does it is monotone, reads no more
than it announces and does not leave the facts of bounded height. -/
def Uniform (P : Problem φ) (g : Supergraph) (H : Height φ) (n : StmtId) : Prop :=
  (∃ f : (StmtId → φ) → φ, (∀ A, P.transferNode (arrivals g A) n (A n) = .ok (f A)) ∧ Monotone f ∧
    (∀ A, (∀ m, H.Within (A m)) → H.Within (f A)) ∧
    ∀ A A', A n = A' n → (∀ m, n ∈ P.readers m → A m = A' m) → f A = f A') ∨
  ∃ e, ∀ arriving x, P.transferNode arriving n x = .error e

theorem Uniform.completed {n : StmtId} (h : P.Uniform g H n) (hbot : H.Within ⊥) :
    ∃ f : (StmtId → φ) → φ,
      (∀ A, P.completed.transferNode (arrivals g A) n (A n) = .ok (f A)) ∧ Monotone f ∧
      (∀ A, (∀ m, H.Within (A m)) → H.Within (f A)) ∧
      ∀ A A', A n = A' n → (∀ m, n ∈ P.readers m → A m = A' m) → f A = f A' := by
  rcases h with ⟨f, hf, hrest⟩ | ⟨e, he⟩
  · exact ⟨f, fun A => by simp [Problem.completed, hf, Except.toOption], hrest⟩
  · exact ⟨fun _ => ⊥, fun A => by simp [Problem.completed, he, Except.toOption], monotone_const,
      fun _ _ => hbot, fun _ _ _ _ => rfl⟩

/-- Completed, the problem has monotone transfers, and where it had to be completed no transfer
succeeds. -/
structure Regular (P : Problem φ) (g : Supergraph) (H : Height φ) : Prop where
  completed : P.completed.Monotonic g H
  uniform : ∀ n ∈ g.nodes, n ∉ boundaryNodes g → P.Uniform g H n

namespace Regular

variable (h : P.Regular g H) {p : Program} (hp : p.Layout) (hg : g.Closed p) {n : StmtId}
  {t t₀ : Table φ}
include h

/-- A settled node whose transfer succeeds satisfies its equations. -/
theorem satisfied_of_settled (hg : g.Closed p) (ht : t.Covers g.nodes) (hn : n ∈ g.nodes)
    (hok : ∀ A, ∃ y, P.transferNode (arrivals g A) n (A n) = .ok y)
    (hs : (P.system g).Settled t.facts n) : P.Satisfied g t n := by
  obtain ⟨harr, hleave⟩ := hs
  obtain ⟨y, hy⟩ := hok t.facts.arriving
  refine ⟨_, y, Table.find?_arriving ht hn, ?_, ?_, ?_⟩
  · rw [harr]
    exact h.completed.isLUB_arrive hg ht n
  · rwa [arriving_eq ht]
  · rw [Table.find?_leaving ht hn, hleave, leave_eq_of_transfer hy]

/-- The initial facts are below every solution, and a solution bounds the equations. -/
theorem initial (hp : p.Layout) (hg : g.Closed p) (ht₀ : P.initial g = .ok t₀) :
    t₀.Covers g.nodes ∧ (P.system g).Approach H t₀.facts t₀.facts ∧
      ∀ u, P.completed.Solves g u → (P.system g).Bounds u.facts ∧ t₀.facts ≤ u.facts := by
  obtain ⟨t, ht, hinit⟩ := initial_eq_ok (P := P.completed) hp hg fun m hm =>
    (h.completed.boundary m hm).imp fun _ => And.left
  cases ht.symm.trans ht₀
  refine ⟨hinit.covers, h.completed.approach_initial hinit, fun u hu => ?_⟩
  exact h.completed.bounds_of_solves hinit hg hu

variable [DecidableEq φ] {c : Change (Table φ)}

/-- A visit that succeeds is a visit in the system, and the node's transfer never fails. -/
theorem visit_eq_ok (hg : g.Closed p) (ht : t.Covers g.nodes) (hn : (P.system g).Free n)
    (hv : P.visit g t n = .ok c) :
    c.value.Covers g.nodes ∧ c.value.facts = (P.system g).visit n t.facts ∧
      c.changed = decide (c.value.facts.leaving n ≠ t.facts.leaving n) ∧
      ∀ A, ∃ y, P.transferNode (arrivals g A) n (A n) = .ok y := by
  obtain ⟨x, hx, hrest⟩ := Outcome.bind_eq_ok.1 hv
  obtain ⟨y, hy, -⟩ := Outcome.bind_eq_ok.1 hrest
  have hok : ∀ A, ∃ y, P.transferNode (arrivals g A) n (A n) = .ok y := by
    rcases h.uniform n hn.1 hn.2 with ⟨f, hf, -⟩ | ⟨e, he⟩
    · exact fun A => ⟨f A, hf A⟩
    · cases hy.symm.trans (he _ _)
  have hcompleted : P.completed.visit g t n = P.visit g t n := by
    have harr : P.completed.arrivingAt g t n = P.arrivingAt g t n := rfl
    have htransfer : P.completed.transferNode (t.setArriving n x).arriving n x = .ok y := by
      simp [Problem.completed, hy, Except.toOption]
    simp only [visit, harr, hx, hy, htransfer, Outcome.ok_bind]
    rfl
  obtain ⟨u, hu, hc, hfacts⟩ := h.completed.visit_eq_ok hg ht hn
  cases hu.symm.trans (hcompleted.trans hv)
  exact ⟨hc, hfacts, rfl, hok⟩

/-- A visit fails only if the transfer of the node never succeeds. -/
theorem visit_cases (ht : t.Covers g.nodes) (hn : (P.system g).Free n) :
    (∃ c, P.visit g t n = .ok c) ∨
      ∃ e, P.visit g t n = .error e ∧ ∀ arriving x, P.transferNode arriving n x = .error e := by
  have hlink : ∀ l ∈ g.links, ∀ x, ∃ y, P.transferLink l x = .ok y := by
    intro l hl x
    obtain ⟨f, hf, -⟩ := h.completed.link l hl
    exact ⟨f x, hf x⟩
  rcases h.uniform n hn.1 hn.2 with ⟨f, hf, -⟩ | ⟨e, he⟩
  · obtain ⟨x, y, hx, hy⟩ := transfer_ok hlink ht hn.1 fun A => ⟨f A, hf A⟩
    simp only [visit, hx, hy, Outcome.ok_bind]
    exact .inl ⟨_, rfl⟩
  · obtain ⟨x, hx⟩ := arrivingAt_ok hlink t n
    refine .inr ⟨e, ?_, he⟩
    simp only [visit, hx, he, Outcome.ok_bind, Outcome.error_bind]

/-- Between two iterations the work list is ready, and what has left it has been visited. -/
theorem underway_of_reached (hp : p.Layout) (hg : g.Closed p) (ht₀ : P.initial g = .ok t₀)
    {s : State φ} (hs : P.Reached g s) : (P.system g).Underway H t₀.facts s ∧
      ∀ n, (P.system g).Free n → n ∉ s.queue →
        ∀ A, ∃ y, P.transferNode (arrivals g A) n (A n) = .ok y := by
  induction hs with
  | start ht =>
    cases ht₀.symm.trans ht
    obtain ⟨hc, happ, -⟩ := h.initial hp hg ht₀
    have hqueue : ∀ n, (P.system g).Free n ↔
        n ∈ enqueue [] (g.nodes.filter (· ∉ boundaryNodes g)) := by
      intro n
      simp [mem_enqueue, System.Free, system]
    exact ⟨⟨hc, happ, nodup_enqueue .nil, fun n hn => (hqueue n).2 hn,
      fun n hn hq => absurd ((hqueue n).1 hn) hq⟩, fun n hn hq => absurd ((hqueue n).1 hn) hq⟩
  | @step s s' _ hstep ih =>
    obtain ⟨hunderway, hvisited⟩ := ih
    obtain ⟨n, q, c, hq, hv, htable, hqueue⟩ := workStep_eq_running hstep
    have hn := hunderway.2.free n (hq ▸ .head _)
    obtain ⟨hc, hfacts, hchanged, hok⟩ := h.visit_eq_ok hg hunderway.1 hn hv
    rw [← htable] at hc hfacts hchanged
    have hrequeue : s'.queue = (P.system g).requeue n s.table.facts q := by
      rw [hqueue, hchanged, hfacts, System.requeue]
      simp only [decide_eq_true_eq, ne_eq, ite_not]
      rfl
    obtain ⟨hnext, hleft⟩ := hunderway.next (h.completed.lawful hg) h.completed.keeps hq hc hfacts
      hrequeue
    refine ⟨hnext, fun m hm hmq => ?_⟩
    rcases hleft m hmq with rfl | hmq
    · exact hok
    · exact hvisited m hm hmq

theorem raises (hp : p.Layout) (hg : g.Closed p) (ht₀ : P.initial g = .ok t₀)
    (ht : t.Covers g.nodes) (happ : (P.system g).Approach H t₀.facts t.facts)
    (hn : (P.system g).Free n) (hv : P.visit g t n = .ok c) : P.Raises g t n c := by
  have hS : (P.system g).Lawful := h.completed.lawful hg
  obtain ⟨hc, hfacts, hchanged, hok⟩ := h.visit_eq_ok hg ht hn hv
  obtain ⟨-, -, hbounds⟩ := h.initial hp hg ht₀
  refine ⟨⟨ht, hc⟩, ?_, fun u hu => ?_, ?_, ?_⟩
  · change t.facts ≤ c.value.facts
    rw [hfacts]
    exact happ.rising.le_visit hS hn
  · obtain ⟨hb, hle⟩ := hbounds u (hu.elim Solves.completed id)
    change c.value.facts ≤ u.facts
    rw [hfacts]
    exact (happ.visit hS h.completed.keeps hn).least u.facts hb hle
  · obtain ⟨y, hy⟩ := hok c.value.facts.arriving
    refine ⟨_, y, Table.find?_arriving hc hn.1, ?_, ?_, ?_⟩
    · rw [hfacts, System.arriving_visit_self]
      exact h.completed.isLUB_arrive hg ht n
    · rwa [arriving_eq hc]
    · rw [Table.find?_leaving hc hn.1, hfacts, System.leaving_visit_self, ← hfacts,
        leave_eq_of_transfer hy]
  · rw [hchanged, decide_eq_true_eq, Table.find?_leaving hc hn.1, Table.find?_leaving ht hn.1,
      ne_eq, ne_eq, Option.some_inj]

theorem ascends (hp : p.Layout) (hg : g.Closed p) : P.Ascends g := by
  obtain ⟨t₀, ht₀, -⟩ := initial_eq_ok (P := P) hp hg fun m hm =>
    (h.completed.boundary m hm).imp fun _ => And.left
  constructor
  · exact ⟨t₀, ht₀⟩
  · intro s n q hs hq
    obtain ⟨⟨hc, hready⟩, -⟩ := h.underway_of_reached hp hg ht₀ hs
    have hn := hready.free n (hq ▸ .head _)
    refine (h.visit_cases hc hn).imp_left fun ⟨c, hv⟩ => ⟨c, hv, ?_⟩
    exact h.raises hp hg ht₀ hc hready.toApproach hn hv
  · intro s n hs hn hnb hq
    obtain ⟨⟨hc, hready⟩, hvisited⟩ := h.underway_of_reached hp hg ht₀ hs
    exact h.satisfied_of_settled hg hc hn (hvisited n ⟨hn, hnb⟩ hq) (hready.settled n ⟨hn, hnb⟩ hq)
  · intro t ht
    exact exists_reached_of_solve ht

end Regular

end Interprocedural.Problem

namespace Interprocedural

variable {p : Program} {g : Supergraph} {a : Option Aliases}

theorem constantPropagation_regular (hp : p.Layout) (hv : p.Declared) (hg : g.Closed p)
    (ha : ∀ al, a = some al → al.Fits p g) :
    (constantPropagation p a).Regular g (Fact.height p.vars.size) := by
  have huniform : ∀ n ∈ g.nodes,
      (constantPropagation p a).Uniform g (Fact.height p.vars.size) n := by
    intro n hn
    by_cases hs : ∃ tag, p.Unsupported n tag
    · obtain ⟨tag, hs⟩ := hs
      exact .inr ⟨_, transferNode_unsupported hs⟩
    · obtain ⟨i, hi⟩ := hg.instr hp hn
      exact .inl (transfers_of_supported hv ha hi fun tag htag => hs ⟨tag, htag⟩)
  have hbot := Fact.within_bot p.vars.size
  exact {
    completed := {
      forward := rfl
      start_eq := rfl
      merge_eq := fun _ _ => rfl
      bot_within := hbot
      sup_within := Fact.Within.merge
      bound_le := le_rfl
      boundary := fun _ hm => parameterFact_of_entry hp hg hm
      link := fun _ hl => carries_transferLink hp hv hg hl
      node := fun n hn _ => (huniform n hn).completed hbot
      readers := fun hn => (of_mem_readers ha hn).1
      passes := fun hn arriving x => by
        have hpass : (constantPropagation p a).transferNode arriving _ x = .ok x :=
          (of_mem_readers ha hn).2 arriving x
        simp [Problem.completed, hpass, Except.toOption] }
    uniform := fun n hn _ => huniform n hn }

end Interprocedural

namespace Program

/-- In every run of the analyses facts only rise: in both analyses of a method under both schedules,
and in interprocedural constant propagation with and without aliases. -/
theorem Built.runs_ascend {p : Program} (hp : p.Built) (hv : p.Declared) :
    (∀ {m g}, p.controlFlow m = .ok g →
      p.constantPropagation.Ascends g ∧ p.liveVariables.Ascends g) ∧
    ∀ {entries calls g aware r a}, p.supergraph entries calls = .ok g →
      Interprocedural.aliasesFor p g aware r = .ok a →
      (Interprocedural.constantPropagation p a).Ascends g := by
  have hl := hp.layout
  constructor
  · intro m g hg
    exact hl.ascends hv hg
  · intro entries calls g aware r a hg ha
    have hclosed := hl.supergraph_closed hg
    have hfits : ∀ al, a = some al → al.Fits p g := fun al hal =>
      Interprocedural.fits_of_aliasesFor ha hal
    exact (Interprocedural.constantPropagation_regular hl hv hclosed hfits).ascends hl hclosed

theorem Built.runs_ascend_sample :
    (∃ g, sample.controlFlow ⟨1⟩ = .ok g ∧ sample.constantPropagation.Ascends g ∧
      sample.liveVariables.Ascends g) ∧
    ∃ g r a, sample.supergraph [⟨2⟩] [(⟨12⟩, ⟨0⟩)] = .ok g ∧
      PointsTo.analyze sample .insensitive = .ok r ∧
      Interprocedural.aliasesFor sample g true (some r) = .ok a ∧
      (Interprocedural.constantPropagation sample a).Ascends g := by
  obtain ⟨hmethod, hprogram⟩ := sample_built.runs_ascend sample_scoped.declared
  constructor
  · obtain ⟨g, hg, -⟩ := sample_built.layout.controlFlow (m := ⟨1⟩) rfl
    exact ⟨g, hg, hmethod hg⟩
  · have hrun : (do
        let g ← sample.supergraph [⟨2⟩] [(⟨12⟩, ⟨0⟩)]
        let r ← PointsTo.analyze sample .insensitive
        let a ← Interprocedural.aliasesFor sample g true (some r)
        return a.isSome : Outcome Bool) = .ok true := by decide +kernel
    obtain ⟨g, hg, hrun⟩ := Outcome.bind_eq_ok.1 hrun
    obtain ⟨r, hr, hrun⟩ := Outcome.bind_eq_ok.1 hrun
    obtain ⟨a, ha, -⟩ := Outcome.bind_eq_ok.1 hrun
    exact ⟨g, r, a, hg, hr, ha, hprogram hg ha⟩

end Program

end ProgramFlow
