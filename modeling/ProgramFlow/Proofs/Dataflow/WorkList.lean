import Mathlib.Algebra.Order.BigOperators.Group.List
import Mathlib.Algebra.Order.Ring.Nat
import Mathlib.Tactic.Linarith
import Mathlib.Tactic.Ring
import ProgramFlow.Proofs.Dataflow.System
/-!
Work lists over systems of equations. A node that is not on the list is settled, and each step
lowers the work that is left when facts of bounded height rise.
-/
namespace ProgramFlow.Dataflow

theorem enqueue_eq_append (queue items : List StmtId) : ∃ l, enqueue queue items = queue ++ l := by
  unfold enqueue
  induction items generalizing queue with
  | nil => exact ⟨[], by simp⟩
  | cons n items ih =>
    rw [List.foldl_cons]
    split
    · exact ih queue
    · obtain ⟨l, hl⟩ := ih (queue ++ [n])
      exact ⟨n :: l, by rw [hl, List.append_assoc, List.singleton_append]⟩

theorem enqueue_of_nodup {queue items : List StmtId} (h : (queue ++ items).Nodup) :
    enqueue queue items = queue ++ items := by
  unfold enqueue
  induction items generalizing queue with
  | nil => simp
  | cons n items ih =>
    have hn : n ∉ queue := fun hn =>
      (List.nodup_append.1 h).2.2 n hn n (.head _) rfl
    rw [List.foldl_cons, if_neg hn, ih (by simpa using h), List.append_assoc,
      List.singleton_append]

/-- A bound on how often a fact can rise. -/
structure Height (φ : Type) [PartialOrder φ] where
  Within : φ → Prop
  rank : φ → Nat
  bound : Nat
  rank_le : ∀ {a}, Within a → rank a ≤ bound
  rank_lt : ∀ {a b}, Within b → a < b → rank a < rank b

namespace System

variable {φ : Type} [PartialOrder φ] (S : System φ) (H : Height φ)

/-- The equations do not leave the facts of bounded height. -/
structure Keeps : Prop where
  arrive : ∀ {n L}, S.Free n → (∀ m, H.Within (L m)) → H.Within (S.arrive L n)
  leave : ∀ {n A}, S.Free n → (∀ m, H.Within (A m)) → H.Within (S.leave A n)

/-- How often the facts that leave nodes can still rise. -/
def potential (x : Facts φ) : Nat := (S.nodes.map fun n => H.bound - H.rank (x.leaving n)).sum

def InHeight (x : Facts φ) : Prop := ∀ n, H.Within (x.arriving n) ∧ H.Within (x.leaving n)

variable {S H} {x y : Facts φ} {n : StmtId}

theorem potential_le : S.potential H x ≤ S.nodes.length * H.bound := by
  have h := List.sum_le_card_nsmul (S.nodes.map fun n => H.bound - H.rank (x.leaving n)) H.bound
    (by simp)
  simpa [potential] using h

theorem InHeight.visit (h : InHeight H x) (hS : S.Keeps H) (hn : S.Free n) :
    InHeight H (S.visit n x) := by
  have harr : ∀ m, H.Within ((S.visit n x).arriving m) := by
    intro m
    by_cases hm : m = n
    · rw [hm, arriving_visit_self]
      exact hS.arrive hn fun k => (h k).2
    · rw [S.arriving_visit_of_ne hm]
      exact (h m).1
  refine fun m => ⟨harr m, ?_⟩
  by_cases hm : m = n
  · rw [hm, leaving_visit_self]
    exact hS.leave hn harr
  · rw [S.leaving_visit_of_ne hm]
    exact (h m).2

theorem potential_visit_of_eq (h : (S.visit n x).leaving n = x.leaving n) :
    S.potential H (S.visit n x) = S.potential H x := by
  rw [potential, S.leaving_visit_of_eq h, potential]

/-- What every visit keeps on the way from the facts `x₀` to the least solution above them. -/
structure Approach (S : System φ) (H : Height φ) (x₀ x : Facts φ) : Prop where
  rising : S.Rising x
  inHeight : InHeight H x
  kept : ∀ n, ¬ S.Free n → x.arriving n = x₀.arriving n ∧ x.leaving n = x₀.leaving n
  least : ∀ y, S.Bounds y → x₀ ≤ y → x ≤ y

variable {x₀ : Facts φ}

theorem Approach.visit (h : Approach S H x₀ x) (hS : S.Lawful) (hK : S.Keeps H) (hn : S.Free n) :
    Approach S H x₀ (S.visit n x) where
  rising := h.rising.visit hS hn
  inHeight := h.inHeight.visit hK hn
  kept := by
    intro m hm
    have hmn : m ≠ n := fun he => hm (he ▸ hn)
    rw [S.arriving_visit_of_ne hmn, S.leaving_visit_of_ne hmn]
    exact h.kept m hm
  least := fun y hy hle => hy.visit_le hS (h.least y hy hle) hn

theorem Approach.potential_visit_lt (h : Approach S H x₀ x) (hS : S.Lawful) (hK : S.Keeps H)
    (hn : S.Free n) (hne : (S.visit n x).leaving n ≠ x.leaving n) :
    S.potential H (S.visit n x) < S.potential H x := by
  have hrank : ∀ m, H.rank (x.leaving m) ≤ H.rank ((S.visit n x).leaving m) := by
    intro m
    rcases ((h.rising.le_visit hS hn).2 m).lt_or_eq with hlt | heq
    · exact (H.rank_lt (h.inHeight.visit hK hn m).2 hlt).le
    · rw [heq]
  refine List.sum_lt_sum _ _ (fun m _ => Nat.sub_le_sub_left (hrank m) _) ⟨n, hn.1, ?_⟩
  have hlt := H.rank_lt (h.inHeight.visit hK hn n).2
    (lt_iff_le_and_ne.2 ⟨(h.rising.le_visit hS hn).2 n, hne.symm⟩)
  have hle := H.rank_le (h.inHeight.visit hK hn n).2
  omega

/-- What holds between two steps of a work list. -/
structure Ready (S : System φ) (H : Height φ) (x₀ x : Facts φ) (q : List StmtId) : Prop
    extends Approach S H x₀ x where
  nodup : q.Nodup
  free : ∀ n ∈ q, S.Free n
  settled : ∀ n, S.Free n → n ∉ q → S.Settled x n

def workload (S : System φ) (H : Height φ) (x : Facts φ) (q : List StmtId) : Nat :=
  S.potential H x * (S.nodes.length + 1) + q.length

variable {q : List StmtId}

theorem Ready.length_le (h : Ready S H x₀ x q) : q.length ≤ S.nodes.length :=
  (List.subperm_of_subset h.nodup fun n hn => (h.free n hn).1).length_le

theorem Ready.workload_le (h : Ready S H x₀ x q) :
    S.workload H x q ≤ S.nodes.length * H.bound * (S.nodes.length + 1) + S.nodes.length :=
  Nat.add_le_add (Nat.mul_le_mul_right _ potential_le) h.length_le

variable [DecidableEq φ]

/-- The work list after the first node `n` has been visited. -/
def requeue (S : System φ) (n : StmtId) (x : Facts φ) (q : List StmtId) : List StmtId :=
  if (S.visit n x).leaving n = x.leaving n then q
  else enqueue q ((S.dependents n).filter (· ∉ S.held))

omit [PartialOrder φ] in
theorem mem_requeue {m : StmtId} (hm : m ∈ q) : m ∈ S.requeue n x q := by
  unfold requeue
  split
  · exact hm
  · exact mem_enqueue.2 (.inl hm)

theorem Ready.visit (h : Ready S H x₀ x (n :: q)) (hS : S.Lawful) (hK : S.Keeps H) :
    Ready S H x₀ (S.visit n x) (S.requeue n x q) := by
  have hn := h.free n (.head _)
  have hnodup := (List.nodup_cons.1 h.nodup).2
  have hfree : ∀ m ∈ q, S.Free m := fun m hm => h.free m (.tail _ hm)
  refine ⟨h.toApproach.visit hS hK hn, ?_, ?_, ?_⟩
  · unfold requeue
    split
    · exact hnodup
    · exact nodup_enqueue hnodup
  · intro m hm
    unfold requeue at hm
    split at hm
    · exact hfree m hm
    · rcases mem_enqueue.1 hm with hm | hm
      · exact hfree m hm
      · obtain ⟨hm, hh⟩ := List.mem_filter.1 hm
        exact ⟨hS.closed hn hm, by simpa using hh⟩
  · intro m hm hmq
    unfold requeue at hmq
    split at hmq
    · next he =>
      refine h.rising.settled_visit hS hn hm (fun hmn => h.settled m hm ?_) fun _ => he
      exact fun hmem => (List.mem_cons.1 hmem).elim hmn hmq
    · rw [mem_enqueue, not_or, List.mem_filter, not_and] at hmq
      refine h.rising.settled_visit hS hn hm (fun hmn => h.settled m hm ?_) fun hd => ?_
      · exact fun hmem => (List.mem_cons.1 hmem).elim hmn hmq.1
      · exact absurd (decide_eq_true hm.2) (hmq.2 hd)

theorem Ready.workload_lt (h : Ready S H x₀ x (n :: q)) (hS : S.Lawful) (hK : S.Keeps H) :
    S.workload H (S.visit n x) (S.requeue n x q) < S.workload H x (n :: q) := by
  have hn := h.free n (.head _)
  have hlen := (h.visit hS hK).length_le
  by_cases he : (S.visit n x).leaving n = x.leaving n
  · rw [workload, workload, potential_visit_of_eq he, requeue, if_pos he, List.length_cons]
    omega
  · have hlt := h.potential_visit_lt hS hK hn he
    have hmul := Nat.mul_le_mul_right (S.nodes.length + 1) (Nat.succ_le_of_lt hlt)
    rw [Nat.succ_mul] at hmul
    simp only [workload]
    omega

end System

theorem sq_le_two_pow (n : Nat) : (n + 1) * (n + 1) ≤ 4 * 2 ^ n := by
  induction n with
  | zero => decide
  | succ n ih =>
    match n with
    | 0 => decide
    | 1 => decide
    | n + 2 =>
      rw [Nat.pow_succ]
      nlinarith

/-- A number of rounds above the number of nodes and the height leaves steps enough. -/
theorem work_lt_two_pow {n h rounds : Nat} (hr : n + h + 3 ≤ rounds) :
    n * h * (n + 1) + n + 1 < 2 ^ rounds := by
  have hh : h + 1 ≤ 2 ^ h := Nat.lt_two_pow_self
  calc n * h * (n + 1) + n + 1 ≤ (n + 1) * (n + 1) * (h + 1) := by
        nlinarith [Nat.zero_le (h * (n + 1))]
    _ ≤ 4 * 2 ^ n * 2 ^ h := Nat.mul_le_mul (sq_le_two_pow n) hh
    _ < 8 * (2 ^ n * 2 ^ h) := by
      have : 0 < 2 ^ n * 2 ^ h := Nat.mul_pos (Nat.two_pow_pos n) (Nat.two_pow_pos h)
      linarith
    _ = 2 ^ (n + h + 3) := by ring
    _ ≤ 2 ^ rounds := Nat.pow_le_pow_right (by omega) hr

end ProgramFlow.Dataflow
