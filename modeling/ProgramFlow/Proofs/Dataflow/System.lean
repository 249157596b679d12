import Mathlib.Data.List.Perm.Subperm
import Mathlib.Order.BoundedOrder.Basic
import Mathlib.Order.Monotone.Basic
import ProgramFlow.Dataflow.Solver
/-!
Systems of equations between the facts that arrive at nodes and those that leave them, and their
solution by visiting one node after the other. In a lawful system that starts at or below its
solutions facts only rise, and a node that need not be visited satisfies its equations.
-/
namespace ProgramFlow.Dataflow

/-- The facts that arrive at and leave the nodes. -/
structure Facts (φ : Type) where
  arriving : StmtId → φ
  leaving : StmtId → φ

instance {φ : Type} [LE φ] : LE (Facts φ) :=
  ⟨fun x y => x.arriving ≤ y.arriving ∧ x.leaving ≤ y.leaving⟩

structure System (φ : Type) where
  nodes : List StmtId
  /-- The nodes that are never visited and keep the fact that leaves them. -/
  held : List StmtId
  arrive : (StmtId → φ) → StmtId → φ
  leave : (StmtId → φ) → StmtId → φ
  /-- The nodes to visit again when the fact that leaves a node has changed. -/
  dependents : StmtId → List StmtId

namespace System

variable {φ : Type} (S : System φ)

def Free (n : StmtId) : Prop := n ∈ S.nodes ∧ n ∉ S.held

/-- The fact that arrives at the node leaves it. -/
def Passes (n : StmtId) : Prop := ∀ A, S.leave A n = A n

def visit (n : StmtId) (x : Facts φ) : Facts φ :=
  let arriving := Function.update x.arriving n (S.arrive x.leaving n)
  ⟨arriving, Function.update x.leaving n (S.leave arriving n)⟩

def Settled (x : Facts φ) (n : StmtId) : Prop :=
  x.arriving n = S.arrive x.leaving n ∧ x.leaving n = S.leave x.arriving n

@[simp] theorem arriving_visit_self (n : StmtId) (x : Facts φ) :
    (S.visit n x).arriving n = S.arrive x.leaving n :=
  Function.update_self ..

theorem arriving_visit_of_ne {m n : StmtId} (h : m ≠ n) (x : Facts φ) :
    (S.visit n x).arriving m = x.arriving m :=
  Function.update_of_ne h ..

@[simp] theorem leaving_visit_self (n : StmtId) (x : Facts φ) :
    (S.visit n x).leaving n = S.leave (S.visit n x).arriving n :=
  Function.update_self ..

theorem leaving_visit_of_ne {m n : StmtId} (h : m ≠ n) (x : Facts φ) :
    (S.visit n x).leaving m = x.leaving m :=
  Function.update_of_ne h ..

theorem leaving_visit_of_eq {n : StmtId} {x : Facts φ}
    (h : (S.visit n x).leaving n = x.leaving n) : (S.visit n x).leaving = x.leaving := by
  funext m
  by_cases hm : m = n
  · rw [hm, h]
  · exact S.leaving_visit_of_ne hm x

variable [PartialOrder φ]

/-- Both sides of the equations are monotone and depend only on the nodes that announce it. What
leaves a node may depend on what arrives at another one if that one passes facts on. -/
structure Lawful : Prop where
  closed : ∀ {m n}, S.Free m → n ∈ S.dependents m → n ∈ S.nodes
  arrive_mono : ∀ {n}, S.Free n → Monotone (S.arrive · n)
  leave_mono : ∀ {n}, S.Free n → Monotone (S.leave · n)
  arrive_local : ∀ {n L L'}, S.Free n → (∀ m, n ∈ S.dependents m → L m = L' m) →
    S.arrive L n = S.arrive L' n
  leave_local : ∀ {n A A'}, S.Free n → A n = A' n →
    (∀ m, n ∈ S.dependents m → S.Passes m → A m = A' m) → S.leave A n = S.leave A' n

/-- The facts are at or below what the equations make of them. -/
structure Rising (x : Facts φ) : Prop where
  arriving_le : ∀ {n}, S.Free n → x.arriving n ≤ S.arrive x.leaving n
  leaving_le : ∀ {n}, S.Free n → x.leaving n ≤ S.leave x.arriving n
  passed : ∀ {n}, S.Free n → S.Passes n → x.leaving n = x.arriving n

/-- The facts are at or above what the equations make of them. -/
def Bounds (y : Facts φ) : Prop :=
  ∀ n, S.Free n → S.arrive y.leaving n ≤ y.arriving n ∧ S.leave y.arriving n ≤ y.leaving n

variable {S} {x y : Facts φ} {n : StmtId}

theorem Rising.le_visit (h : S.Rising x) (hS : S.Lawful) (hn : S.Free n) : x ≤ S.visit n x := by
  have harr : x.arriving ≤ (S.visit n x).arriving := by
    intro m
    by_cases hm : m = n
    · rw [hm, arriving_visit_self]
      exact h.arriving_le hn
    · rw [S.arriving_visit_of_ne hm]
  refine ⟨harr, fun m => ?_⟩
  by_cases hm : m = n
  · rw [hm, leaving_visit_self]
    exact (h.leaving_le hn).trans (hS.leave_mono hn harr)
  · rw [S.leaving_visit_of_ne hm]

theorem Rising.visit (h : S.Rising x) (hS : S.Lawful) (hn : S.Free n) :
    S.Rising (S.visit n x) where
  arriving_le := by
    intro m hm
    have hle := hS.arrive_mono hm (h.le_visit hS hn).2
    by_cases he : m = n
    · subst he
      rwa [arriving_visit_self]
    · rw [S.arriving_visit_of_ne he]
      exact (h.arriving_le hm).trans hle
  leaving_le := by
    intro m hm
    by_cases he : m = n
    · subst he
      rw [leaving_visit_self]
    · rw [S.leaving_visit_of_ne he]
      exact (h.leaving_le hm).trans (hS.leave_mono hm (h.le_visit hS hn).1)
  passed := by
    intro m hm hp
    by_cases he : m = n
    · subst he
      rw [leaving_visit_self, hp]
    · rw [S.leaving_visit_of_ne he, S.arriving_visit_of_ne he, h.passed hm hp]

theorem Bounds.visit_le (hy : S.Bounds y) (hS : S.Lawful) (hxy : x ≤ y) (hn : S.Free n) :
    S.visit n x ≤ y := by
  have harr : (S.visit n x).arriving ≤ y.arriving := by
    intro m
    by_cases hm : m = n
    · rw [hm, arriving_visit_self]
      exact (hS.arrive_mono hn hxy.2).trans (hy n hn).1
    · rw [S.arriving_visit_of_ne hm]
      exact hxy.1 m
  refine ⟨harr, fun m => ?_⟩
  by_cases hm : m = n
  · rw [hm, leaving_visit_self]
    exact (hS.leave_mono hn harr).trans (hy n hn).2
  · rw [S.leaving_visit_of_ne hm]
    exact hxy.2 m

/-- A visit settles its node, and keeps another node settled if it changes neither what arrives there
nor what is made of it. -/
theorem settled_visit_of (hS : S.Lawful) {m : StmtId} (hm : S.Free m)
    (hx : m ≠ n → S.Settled x m)
    (hd : m ∈ S.dependents n → (S.visit n x).leaving n = x.leaving n)
    (hleave : m ≠ n → S.leave (S.visit n x).arriving m = S.leave x.arriving m) :
    S.Settled (S.visit n x) m := by
  have harr : S.arrive (S.visit n x).leaving m = S.arrive x.leaving m := by
    apply hS.arrive_local hm
    intro k hk
    by_cases hkn : k = n
    · subst hkn
      exact hd hk
    · exact S.leaving_visit_of_ne hkn x
  by_cases hmn : m = n
  · subst hmn
    exact ⟨by rw [arriving_visit_self, harr], S.leaving_visit_self _ _⟩
  · obtain ⟨ha, hl⟩ := hx hmn
    constructor
    · rw [harr, S.arriving_visit_of_ne hmn, ha]
    · rw [hleave hmn, S.leaving_visit_of_ne hmn, hl]

/-- A visit settles its node and keeps the others settled, except for those that it asks to visit
again. -/
theorem Rising.settled_visit (h : S.Rising x) (hS : S.Lawful) (hn : S.Free n) {m : StmtId}
    (hm : S.Free m) (hx : m ≠ n → S.Settled x m)
    (hd : m ∈ S.dependents n → (S.visit n x).leaving n = x.leaving n) :
    S.Settled (S.visit n x) m := by
  apply settled_visit_of hS hm hx hd
  intro hmn
  apply hS.leave_local hm (S.arriving_visit_of_ne hmn x)
  intro k hk hp
  by_cases hkn : k = n
  · subst hkn
    rw [← (h.visit hS hn).passed hn hp, hd hk, h.passed hn hp]
  · exact S.arriving_visit_of_ne hkn x

end System

end ProgramFlow.Dataflow
