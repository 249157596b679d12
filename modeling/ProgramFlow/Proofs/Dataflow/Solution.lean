import Mathlib.Order.Bounds.Basic
import ProgramFlow.Proofs.Dataflow.WorkList
import ProgramFlow.Proofs.Iteration
import ProgramFlow.Proofs.Outcome
/-!
Solutions of systems of equations as tables, and the runs of a work list that lead to the least
one.
-/
namespace ProgramFlow

namespace SortedMap

variable {κ α : Type} [Ord κ] [Std.TransOrd κ] [Std.LawfulEqOrd κ] [DecidableEq κ]

theorem find?_foldl_insert {f : κ → α} (l : List κ) (m : SortedMap κ α) (k : κ) :
    ((l.map fun j => (j, f j)).foldl (fun m e => m.insert e.1 e.2) m).find? k =
      if k ∈ l then some (f k) else m.find? k := by
  induction l generalizing m with
  | nil => rfl
  | cons j l ih =>
    rw [List.map_cons, List.foldl_cons, ih, find?_insert]
    grind

theorem find?_ofList_map (f : κ → α) (l : List κ) (k : κ) :
    (ofList (l.map fun j => (j, f j))).find? k = if k ∈ l then some (f k) else none :=
  find?_foldl_insert l ∅ k

end SortedMap

namespace Dataflow

variable {φ : Type}

section Join

variable [SemilatticeSup φ] [OrderBot φ]

/-- The least upper bound of the facts in a list. -/
def join (l : List φ) : φ := l.foldl (· ⊔ ·) ⊥

theorem foldl_sup_eq (l : List φ) (a : φ) : l.foldl (· ⊔ ·) a = a ⊔ join l := by
  induction l generalizing a with
  | nil => simp [join]
  | cons b l ih => rw [join, List.foldl_cons, List.foldl_cons, ih, ih, bot_sup_eq, sup_assoc]

theorem join_cons (a : φ) (l : List φ) : join (a :: l) = a ⊔ join l := by
  rw [join, List.foldl_cons, bot_sup_eq, foldl_sup_eq]

theorem isLUB_join (l : List φ) : IsLUB {x | x ∈ l} (join l) := by
  induction l with
  | nil => exact ⟨fun _ hx => (List.not_mem_nil hx).elim, fun _ _ => bot_le⟩
  | cons a l ih =>
    rw [join_cons]
    refine ⟨fun x hx => ?_, fun b hb => sup_le (hb (.head _)) (ih.2 fun x hx => hb (.tail _ hx))⟩
    rcases List.mem_cons.1 hx with rfl | hx
    · exact le_sup_left
    · exact (ih.1 hx).trans le_sup_right

theorem join_map_mono {α : Type} {f g : α → φ} {l : List α} (h : ∀ a ∈ l, f a ≤ g a) :
    join (l.map f) ≤ join (l.map g) := by
  apply (isLUB_join _).2
  intro x hx
  obtain ⟨a, ha, rfl⟩ := List.mem_map.1 hx
  exact (h a ha).trans ((isLUB_join _).1 (List.mem_map_of_mem ha))

theorem Height.within_join {H : Height φ} (hbot : H.Within ⊥)
    (hsup : ∀ {x y}, H.Within x → H.Within y → H.Within (x ⊔ y)) {l : List φ}
    (hl : ∀ x ∈ l, H.Within x) : H.Within (join l) := by
  induction l with
  | nil => exact hbot
  | cons a l ih =>
    rw [join_cons]
    exact hsup (hl a (.head _)) (ih fun x hx => hl x (.tail _ hx))

end Join

namespace Table

section

variable [LE φ] [OrderBot φ]

/-- The facts of a table; a node without an entry has the least one. -/
def facts (t : Table φ) : Facts φ where
  arriving n := (t.arriving.find? n).getD ⊥
  leaving n := (t.leaving.find? n).getD ⊥

/-- Tables are compared node by node. -/
instance : LE (Table φ) := ⟨fun t u => t.facts ≤ u.facts⟩

end

/-- The table has facts for these nodes and for no others. -/
def Covers (t : Table φ) (nodes : List StmtId) : Prop :=
  ∀ n, ((t.arriving.find? n).isSome ↔ n ∈ nodes) ∧ ((t.leaving.find? n).isSome ↔ n ∈ nodes)

theorem Covers.set {t : Table φ} {nodes : List StmtId} (h : t.Covers nodes) {n : StmtId}
    (hn : n ∈ nodes) (x y : φ) : ((t.setArriving n x).setLeaving n y).Covers nodes := by
  intro m
  simp only [setLeaving, setArriving, SortedMap.find?_insert]
  constructor <;> split
  · next hm => simp [hm, hn]
  · exact (h m).1
  · next hm => simp [hm, hn]
  · exact (h m).2

variable [PartialOrder φ] [OrderBot φ] {t u : Table φ} {nodes : List StmtId}

theorem find?_arriving (h : t.Covers nodes) {n : StmtId} (hn : n ∈ nodes) :
    t.arriving.find? n = some (t.facts.arriving n) := by
  obtain ⟨x, hx⟩ := Option.isSome_iff_exists.1 ((h n).1.2 hn)
  simp [facts, hx]

theorem find?_leaving (h : t.Covers nodes) {n : StmtId} (hn : n ∈ nodes) :
    t.leaving.find? n = some (t.facts.leaving n) := by
  obtain ⟨x, hx⟩ := Option.isSome_iff_exists.1 ((h n).2.2 hn)
  simp [facts, hx]

theorem Covers.eq_of_facts_le (ht : t.Covers nodes) (hu : u.Covers nodes) (h : t ≤ u)
    (h' : u ≤ t) : t = u := by
  obtain ⟨arriving, leaving⟩ := t
  obtain ⟨arriving', leaving'⟩ := u
  congr 1
  · apply SortedMap.ext
    intro n
    by_cases hn : n ∈ nodes
    · have hf := le_antisymm (h.1 n) (h'.1 n)
      exact (find?_arriving ht hn).trans ((congrArg some hf).trans (find?_arriving hu hn).symm)
    · rw [Option.not_isSome_iff_eq_none.1 (mt (ht n).1.1 hn),
        Option.not_isSome_iff_eq_none.1 (mt (hu n).1.1 hn)]
  · apply SortedMap.ext
    intro n
    by_cases hn : n ∈ nodes
    · have hf := le_antisymm (h.2 n) (h'.2 n)
      exact (find?_leaving ht hn).trans ((congrArg some hf).trans (find?_leaving hu hn).symm)
    · rw [Option.not_isSome_iff_eq_none.1 (mt (ht n).2.1 hn),
        Option.not_isSome_iff_eq_none.1 (mt (hu n).2.1 hn)]

theorem facts_visit (S : System φ) (t : Table φ) (n : StmtId) {x y : φ}
    (hx : x = S.arrive t.facts.leaving n)
    (hy : y = S.leave (Function.update t.facts.arriving n x) n) :
    ((t.setArriving n x).setLeaving n y).facts = S.visit n t.facts := by
  subst hx hy
  simp only [facts, setLeaving, setArriving, SortedMap.find?_insert, System.visit, Facts.mk.injEq]
  constructor <;> funext m <;> rw [Function.update_apply] <;> split <;> rfl

end Table

namespace System

variable [PartialOrder φ] {S : System φ} {H : Height φ}

/-- The free nodes are settled, the others have kept their facts, and the facts are at or below
those of every solution above the start. -/
structure Solved (S : System φ) (x₀ x : Facts φ) : Prop where
  settled : ∀ n, S.Free n → S.Settled x n
  kept : ∀ n, ¬ S.Free n → x.arriving n = x₀.arriving n ∧ x.leaving n = x₀.leaving n
  least : ∀ y, S.Bounds y → x₀ ≤ y → x ≤ y

variable [OrderBot φ] [DecidableEq φ]

/-- The step takes the first node from the work list and visits it. -/
structure Steps (S : System φ) (step : State φ → Progress (State φ) (Outcome (State φ))) :
    Prop where
  done : ∀ {s}, s.queue = [] → step s = .finished (.ok s)
  next : ∀ {s n q}, s.table.Covers S.nodes → s.queue = n :: q → S.Free n →
    ∃ t, step s = .running t ∧ t.table.Covers S.nodes ∧
      t.table.facts = S.visit n s.table.facts ∧ t.queue = S.requeue n s.table.facts q

/-- A state whose table is for the nodes of the system and whose work list is ready. -/
def Underway (S : System φ) (H : Height φ) (x₀ : Facts φ) (s : State φ) : Prop :=
  s.table.Covers S.nodes ∧ Ready S H x₀ s.table.facts s.queue

/-- A step that visits the first node of the work list leads to such a state again, and nothing but
that node leaves the list. -/
theorem Underway.next (hS : S.Lawful) (hK : S.Keeps H) {x₀ : Facts φ} {s t : State φ}
    (h : S.Underway H x₀ s) {n : StmtId} {q : List StmtId} (hq : s.queue = n :: q)
    (hc : t.table.Covers S.nodes) (hfacts : t.table.facts = S.visit n s.table.facts)
    (hqueue : t.queue = S.requeue n s.table.facts q) :
    S.Underway H x₀ t ∧ ∀ m, m ∉ t.queue → m = n ∨ m ∉ s.queue := by
  have hready := h.2
  rw [hq] at hready
  refine ⟨⟨hc, ?_⟩, fun m hm => or_iff_not_imp_left.2 fun hmn hmem => hm ?_⟩
  · rw [hfacts, hqueue]
    exact hready.visit hS hK
  · rw [hq] at hmem
    rw [hqueue]
    exact mem_requeue ((List.mem_cons.1 hmem).resolve_left hmn)

/-- The solver has ended with a table that solves the system. -/
def Delivers (S : System φ) (x₀ : Facts φ) (r : Outcome (State φ)) : Prop :=
  ∃ t, r = .ok t ∧ t.table.Covers S.nodes ∧ S.Solved x₀ t.table.facts

section

variable {step : State φ → Progress (State φ) (Outcome (State φ))} (hstep : S.Steps step)
  (hS : S.Lawful) (hK : S.Keeps H) {x₀ : Facts φ} {s : State φ}
include hstep hS hK

/-- Each step leaves less work, or the work list is empty and the facts solve the system. -/
theorem Steps.of_underway (h : S.Underway H x₀ s) :
    (∃ t, step s = .running t ∧ S.Underway H x₀ t ∧
      S.workload H t.table.facts t.queue < S.workload H s.table.facts s.queue) ∨
    ∃ r, step s = .finished r ∧ S.Delivers x₀ r := by
  have hc := h.1
  have hs := h.2
  cases hq : s.queue with
  | nil =>
    have hsettled : ∀ n, S.Free n → S.Settled s.table.facts n := fun n hn =>
      hs.settled n hn (by simp [hq])
    exact .inr ⟨_, hstep.done hq, s, rfl, hc, hsettled, hs.kept, hs.least⟩
  | cons n q =>
    rw [hq] at hs
    obtain ⟨t, ht, hct, hfacts, hqueue⟩ := hstep.next hc hq (hs.free n (.head _))
    refine .inl ⟨t, ht, (h.next hS hK hq hct hfacts hqueue).1, ?_⟩
    rw [hfacts, hqueue]
    exact hs.workload_lt hS hK

/-- A work list that starts ready runs empty, and leaves the least solution. -/
theorem Steps.iterate (hc : s.table.Covers S.nodes) (hs : Ready S H x₀ s.table.facts s.queue)
    {rounds : Nat} (hr : S.nodes.length + H.bound + 3 ≤ rounds) :
    ∃ t : State φ, Progress.iterate step rounds s = .finished (.ok t) ∧
      t.table.Covers S.nodes ∧ S.Solved x₀ t.table.facts := by
  have hmeasure : S.workload H s.table.facts s.queue + 1 < 2 ^ rounds :=
    Nat.lt_of_le_of_lt (Nat.succ_le_succ hs.workload_le) (work_lt_two_pow hr)
  obtain ⟨r, hr, t, rfl, ht⟩ := Progress.iterate_ends (P := S.Underway H x₀) (Q := S.Delivers x₀)
    (m := fun t => S.workload H t.table.facts t.queue) rounds s ⟨hc, hs⟩ hmeasure
    fun _ => hstep.of_underway hS hK
  exact ⟨t, hr, ht⟩

end

end System

/-- A state that `I` holds of, and whose work list has the node `n` behind nodes of `l`. -/
def Awaits (I : State φ → Prop) (l : List StmtId) (n : StmtId) (s : State φ) : Prop :=
  I s ∧ ∃ before after, s.queue = before ++ n :: after ∧ ∀ m ∈ before, m ∈ l

section

variable {step : State φ → Progress (State φ) (Outcome (State φ))}
  {I : State φ → Prop} {l l' : List StmtId} {n : StmtId} {e : AnalysisError}
  (hgood : ∀ s m q, I s → s.queue = m :: q → m ∈ l →
    ∃ t more, step s = .running t ∧ I t ∧ t.queue = q ++ more)
  (hbad : ∀ s q, I s → s.queue = n :: q → step s = .finished (.error e)) (hn : n ∉ l)
  {s : State φ}

include hn in
theorem idxOf_eq_length {before after : List StmtId} (hb : ∀ m ∈ before, m ∈ l) :
    (before ++ n :: after).idxOf n = before.length := by
  rw [List.idxOf_append_of_notMem fun hmem => hn (hb n hmem), List.idxOf_cons_self, Nat.add_zero]

include hgood hbad hn

/-- Each step brings the failing node nearer, or fails there. -/
theorem Awaits.approaches (h : Awaits I l n s) :
    (∃ t, step s = .running t ∧ Awaits I l n t ∧ t.queue.idxOf n < s.queue.idxOf n) ∨
      ∃ r, step s = .finished r ∧ r = .error e := by
  obtain ⟨hs, before, after, hq, hb⟩ := h
  cases before with
  | nil => exact .inr ⟨_, hbad s after hs hq, rfl⟩
  | cons m before =>
    have hb' : ∀ m ∈ before, m ∈ l := fun k hk => hb k (.tail _ hk)
    obtain ⟨t, more, hstep, ht, hqt⟩ := hgood s m (before ++ n :: after) hs hq (hb m (.head _))
    rw [List.append_assoc, List.cons_append] at hqt
    refine .inl ⟨t, hstep, ⟨ht, before, after ++ more, hqt, hb'⟩, ?_⟩
    rw [hqt, hq, idxOf_eq_length hn hb', idxOf_eq_length hn hb]
    exact Nat.lt_succ_self _

/-- A work list reaches a failing node after those before it, since new nodes queue up behind. -/
theorem iterate_error (hs : I s) (hq : s.queue = l ++ n :: l') {rounds : Nat}
    (hr : l.length < rounds) : Progress.iterate step rounds s = .finished (.error e) := by
  have hmeasure : s.queue.idxOf n + 1 < 2 ^ rounds := by
    have hpow : rounds < 2 ^ rounds := Nat.lt_two_pow_self
    rw [hq, idxOf_eq_length hn fun m hm => hm]
    omega
  obtain ⟨r, hr, rfl⟩ := Progress.iterate_ends (P := Awaits I l n) (Q := fun r => r = Except.error e)
    (m := fun t => t.queue.idxOf n) rounds s ⟨hs, l, l', hq, fun m hm => hm⟩ hmeasure
    fun _ => Awaits.approaches hgood hbad hn
  exact hr

end

end Dataflow

end ProgramFlow
