import ProgramFlow.Proofs.Constants.Soundness
import ProgramFlow.Proofs.Dataflow.Analyses
/-!
Resuming the work list. A table that satisfies the equations stays as it is. From facts at or below
the least solution the work list returns to it, even if they are not consistent and first fall: they
stay between the solution and an approximation of it from the bottom, which each turn of the queue
improves.
-/
namespace ProgramFlow

namespace Dataflow

namespace System

variable {φ : Type} (S : System φ)

/-- What leaves a node depends only on what arrives at it. -/
def Direct : Prop := ∀ {n A A'}, S.Free n → A n = A' n → S.leave A n = S.leave A' n

/-- What leaves a node when it is visited, given what leaves the others. -/
def relay (L : StmtId → φ) (n : StmtId) : φ := S.leave (fun _ => S.arrive L n) n

instance (n : StmtId) : Decidable (S.Free n) :=
  inferInstanceAs (Decidable (n ∈ S.nodes ∧ n ∉ S.held))

/-- Visits all free nodes at once. -/
def advance (L : StmtId → φ) (n : StmtId) : φ := if S.Free n then S.relay L n else L n

variable {S} {n : StmtId} {x : Facts φ}

theorem advance_of_free (hn : S.Free n) (L : StmtId → φ) : S.advance L n = S.relay L n := if_pos hn

theorem Direct.leaving_visit_self (hD : S.Direct) (hn : S.Free n) :
    (S.visit n x).leaving n = S.relay x.leaving n := by
  rw [S.leaving_visit_self]
  exact hD hn (S.arriving_visit_self n x)

theorem Settled.leaving_eq (hD : S.Direct) (hn : S.Free n) (h : S.Settled x n) :
    x.leaving n = S.relay x.leaving n :=
  h.2.trans (hD hn h.1)

/-- The visit of a settled node changes nothing. -/
theorem Settled.visit_eq (h : S.Settled x n) : S.visit n x = x := by
  obtain ⟨arriving, leaving⟩ := x
  obtain ⟨harr, hleave⟩ := h
  dsimp only at harr hleave
  simp only [visit, ← harr, Function.update_eq_self, ← hleave]

variable [PartialOrder φ]

theorem Lawful.relay_mono (hS : S.Lawful) (hn : S.Free n) : Monotone (S.relay · n) :=
  fun _ _ h => hS.leave_mono hn fun _ => hS.arrive_mono hn h

theorem Direct.settled_visit (hD : S.Direct) (hS : S.Lawful) {m : StmtId} (hm : S.Free m)
    (hx : m ≠ n → S.Settled x m)
    (hd : m ∈ S.dependents n → (S.visit n x).leaving n = x.leaving n) :
    S.Settled (S.visit n x) m :=
  settled_visit_of hS hm hx hd fun hmn => hD hm (S.arriving_visit_of_ne hmn x)

variable {H : Height φ} {x₀ y : Facts φ} {b : StmtId → φ}

/-- An approximation from below of what leaves the nodes in every solution above the start. -/
structure Approximates (S : System φ) (H : Height φ) (x₀ : Facts φ) (b : StmtId → φ) : Prop where
  within : ∀ n, H.Within (b n)
  start_le : x₀.leaving ≤ b
  rising : ∀ {n}, S.Free n → b n ≤ S.relay b n

namespace Approximates

variable (h : Approximates S H x₀ b)
include h

theorem le_advance : b ≤ S.advance b := by
  intro n
  by_cases hn : S.Free n
  · rw [advance_of_free hn]
    exact h.rising hn
  · exact (if_neg hn).ge

theorem advance (hS : S.Lawful) (hK : S.Keeps H) : Approximates S H x₀ (S.advance b) where
  within := by
    intro n
    unfold System.advance
    split
    · next hn => exact hK.leave hn fun _ => hK.arrive hn h.within
    · exact h.within n
  start_le := h.start_le.trans h.le_advance
  rising := by
    intro n hn
    rw [advance_of_free hn]
    exact hS.relay_mono hn h.le_advance

theorem potential_advance_lt (hS : S.Lawful) (hK : S.Keeps H) (hne : S.advance b ≠ b) :
    S.potential H ⟨S.advance b, S.advance b⟩ < S.potential H ⟨b, b⟩ := by
  have hadv := h.advance hS hK
  obtain ⟨n, hn⟩ := Function.ne_iff.1 hne
  have hfree : S.Free n := by
    by_contra hfree
    exact hn (if_neg hfree)
  have hlt : ∀ {m}, S.advance b m ≠ b m → H.rank (b m) < H.rank (S.advance b m) := fun hm =>
    H.rank_lt (hadv.within _) (lt_iff_le_and_ne.2 ⟨h.le_advance _, hm.symm⟩)
  have hrank : ∀ m, H.rank (b m) ≤ H.rank (S.advance b m) := by
    intro m
    by_cases hm : S.advance b m = b m
    · rw [hm]
    · exact (hlt hm).le
  refine List.sum_lt_sum _ _ (fun m _ => Nat.sub_le_sub_left (hrank m) _) ⟨n, hfree.1, ?_⟩
  have hstrict := hlt hn
  have hle := H.rank_le (hadv.within n)
  dsimp only
  omega

/-- An approximation that visits do not improve is at or above the least solution. -/
theorem le_of_advance_eq [OrderBot φ] (hD : S.Direct) (hbot : x₀.arriving = ⊥)
    (hy : S.Solved x₀ y) (hfix : S.advance b = b) : y.leaving ≤ b := by
  have hbounds : S.Bounds ⟨S.arrive b, b⟩ := by
    intro n hn
    refine ⟨le_rfl, ?_⟩
    have heq : S.leave (S.arrive b) n = S.relay b n := hD hn rfl
    have hrelay : S.relay b n = b n := (advance_of_free hn b).symm.trans (congrFun hfix n)
    exact (heq.trans hrelay).le
  refine (hy.least _ hbounds ⟨?_, h.start_le⟩).2
  rw [hbot]
  exact bot_le

end Approximates

/-- What holds between two steps of a work list that has started below the least solution `y`. The
facts that leave nodes are between an approximation `b` and `y`. In this turn of the queue the nodes
in `rest` are still to be visited, the others have been visited since `b` was reached; the nodes in
`later` have been added in this turn, and then `b` is not the solution. -/
structure Between (S : System φ) (H : Height φ) (x₀ y : Facts φ) (b : StmtId → φ) (x : Facts φ)
    (rest later : List StmtId) : Prop where
  approximates : Approximates S H x₀ b
  nodup : (rest ++ later).Nodup
  free : ∀ n ∈ rest ++ later, S.Free n
  settled : ∀ n, S.Free n → n ∉ rest ++ later → S.Settled x n
  kept : ∀ n, ¬ S.Free n → x.arriving n = y.arriving n ∧ x.leaving n = y.leaving n
  above : b ≤ x.leaving
  below : x.leaving ≤ y.leaving
  advanced : ∀ n, S.Free n → n ∉ rest → S.relay b n ≤ x.leaving n
  unfinished : later ≠ [] → S.advance b ≠ b

namespace Between

variable {rest later : List StmtId}

theorem length_le (h : Between S H x₀ y b x rest later) : rest.length ≤ S.nodes.length :=
  (List.subperm_of_subset (List.nodup_append.1 h.nodup).1
    fun n hn => (h.free n (List.mem_append_left _ hn)).1).length_le

/-- A new turn starts: the approximation is improved, since all nodes have been visited. -/
theorem turn (h : Between S H x₀ y b x [] later) (hD : S.Direct) (hS : S.Lawful)
    (hK : S.Keeps H) : Between S H x₀ y (S.advance b) x later [] := by
  have habove : S.advance b ≤ x.leaving := by
    intro n
    unfold System.advance
    split
    · next hn => exact h.advanced n hn List.not_mem_nil
    · exact h.above n
  exact {
    approximates := h.approximates.advance hS hK
    nodup := by simpa using h.nodup
    free := by simpa using h.free
    settled := by simpa using h.settled
    kept := h.kept
    above := habove
    below := h.below
    advanced := by
      intro n hn hlater
      rw [(h.settled n hn hlater).leaving_eq hD hn]
      exact hS.relay_mono hn habove
    unfinished := fun hne => (hne rfl).elim }

/-- After a visit the facts are still between the approximation and the solution, whatever the queue
looks like. -/
theorem visited (h : Between S H x₀ y b x (n :: rest) later) (hD : S.Direct) (hS : S.Lawful)
    (hy : S.Solved x₀ y) {later' : List StmtId} (hnodup : (rest ++ later').Nodup)
    (hfree : ∀ m ∈ rest ++ later', S.Free m)
    (hsettled : ∀ m, S.Free m → m ∉ rest ++ later' → S.Settled (S.visit n x) m)
    (hunfinished : later' ≠ [] → S.advance b ≠ b) :
    Between S H x₀ y b (S.visit n x) rest later' := by
  have hn := h.free n (.head _)
  have hleave := hD.leaving_visit_self (x := x) hn
  refine {
    approximates := h.approximates, nodup := hnodup, free := hfree, settled := hsettled
    unfinished := hunfinished, kept := ?_, above := ?_, below := ?_, advanced := ?_ }
  · intro m hm
    have hmn : m ≠ n := fun he => hm (he ▸ hn)
    rw [S.arriving_visit_of_ne hmn, S.leaving_visit_of_ne hmn]
    exact h.kept m hm
  · intro m
    by_cases hmn : m = n
    · rw [hmn, hleave]
      exact (h.approximates.rising hn).trans (hS.relay_mono hn h.above)
    · rw [S.leaving_visit_of_ne hmn]
      exact h.above m
  · intro m
    by_cases hmn : m = n
    · rw [hmn, hleave, (hy.settled n hn).leaving_eq hD hn]
      exact hS.relay_mono hn h.below
    · rw [S.leaving_visit_of_ne hmn]
      exact h.below m
  · intro m hm hrest
    by_cases hmn : m = n
    · rw [hmn, hleave]
      exact hS.relay_mono hn h.above
    · rw [S.leaving_visit_of_ne hmn]
      exact h.advanced m hm fun hmem => (List.mem_cons.1 hmem).elim hmn hrest

variable [OrderBot φ]

/-- A node whose visit changes what leaves it shows that the approximation is not the solution. -/
theorem advance_ne (h : Between S H x₀ y b x rest later) (hD : S.Direct) (hbot : x₀.arriving = ⊥)
    (hy : S.Solved x₀ y) (hn : S.Free n) (hne : (S.visit n x).leaving n ≠ x.leaving n) :
    S.advance b ≠ b := by
  intro hfix
  have heq : x.leaving = y.leaving :=
    le_antisymm h.below ((h.approximates.le_of_advance_eq hD hbot hy hfix).trans h.above)
  apply hne
  rw [hD.leaving_visit_self hn, heq]
  exact ((hy.settled n hn).leaving_eq hD hn).symm

theorem visit [DecidableEq φ] (h : Between S H x₀ y b x (n :: rest) later) (hD : S.Direct)
    (hS : S.Lawful) (hbot : x₀.arriving = ⊥) (hy : S.Solved x₀ y) :
    ∃ later', S.requeue n x (rest ++ later) = rest ++ later' ∧
      Between S H x₀ y b (S.visit n x) rest later' := by
  have hn := h.free n (.head _)
  have hnodup := (List.nodup_cons.1 h.nodup).2
  have hfree : ∀ m ∈ rest ++ later, S.Free m := fun m hm => h.free m (.tail _ hm)
  have hold : ∀ {m}, S.Free m → m ∉ rest ++ later → m ≠ n → S.Settled x m := fun hm hq hmn =>
    h.settled _ hm fun hmem => (List.mem_cons.1 hmem).elim hmn hq
  by_cases he : (S.visit n x).leaving n = x.leaving n
  · refine ⟨later, if_pos he, h.visited hD hS hy hnodup hfree ?_ h.unfinished⟩
    exact fun m hm hq => hD.settled_visit hS hm (hold hm hq) fun _ => he
  · obtain ⟨more, hmore⟩ := enqueue_eq_append (rest ++ later)
      ((S.dependents n).filter (· ∉ S.held))
    rw [List.append_assoc] at hmore
    have hmem : ∀ {m}, m ∈ rest ++ (later ++ more) ↔
        m ∈ rest ++ later ∨ m ∈ (S.dependents n).filter (· ∉ S.held) := by
      intro m
      rw [← hmore, mem_enqueue]
    refine ⟨later ++ more, (if_neg he).trans hmore, h.visited hD hS hy ?_ ?_ ?_ fun _ => ?_⟩
    · exact hmore ▸ nodup_enqueue hnodup
    · intro m hm
      rcases hmem.1 hm with hq | hd
      · exact hfree m hq
      · obtain ⟨hd, hheld⟩ := List.mem_filter.1 hd
        exact ⟨hS.closed hn hd, of_decide_eq_true hheld⟩
    · intro m hm hq
      rw [hmem, not_or] at hq
      apply hD.settled_visit hS hm (hold hm hq.1)
      exact fun hd => (hq.2 (List.mem_filter.2 ⟨hd, decide_eq_true hm.2⟩)).elim
    · exact h.advance_ne hD hbot hy hn he

/-- When the queue is empty, the facts are those of the least solution. -/
theorem eq_of_nil (h : Between S H x₀ y b x [] []) (hS : S.Lawful) (hbot : x₀.arriving = ⊥)
    (hy : S.Solved x₀ y) : x ≤ y ∧ y ≤ x := by
  have hsettled : ∀ n, S.Free n → S.Settled x n := fun n hn => h.settled n hn List.not_mem_nil
  have hbounds : S.Bounds x := fun n hn => ⟨(hsettled n hn).1.ge, (hsettled n hn).2.ge⟩
  have hstart : x₀ ≤ x := by
    refine ⟨?_, h.approximates.start_le.trans h.above⟩
    rw [hbot]
    exact bot_le
  refine ⟨⟨fun n => ?_, h.below⟩, hy.least x hbounds hstart⟩
  by_cases hn : S.Free n
  · rw [(hsettled n hn).1, (hy.settled n hn).1]
    exact hS.arrive_mono hn h.below
  · exact (h.kept n hn).1.le

end Between

variable [OrderBot φ] [DecidableEq φ]
  {step : State φ → Progress (State φ) (Outcome (State φ))} {s : State φ} {rounds : Nat}

/-- A state between two steps, with so much work left in this turn of the queue. -/
def Midway (S : System φ) (H : Height φ) (x₀ y : Facts φ) (k : Nat) (t : State φ) : Prop :=
  t.table.Covers S.nodes ∧ ∃ b rest later, t.queue = rest ++ later ∧
    Between S H x₀ y b t.table.facts rest later ∧ k = S.workload H ⟨b, b⟩ rest

/-- The work list has ended with the facts `y`. -/
def Concludes (S : System φ) (y : Facts φ) (r : Outcome (State φ)) : Prop :=
  ∃ t, r = .ok t ∧ t.table.Covers S.nodes ∧ t.table.facts ≤ y ∧ y ≤ t.table.facts

section

variable (hstep : S.Steps step) (hD : S.Direct) (hS : S.Lawful) (hbot : x₀.arriving = ⊥)
  (hy : S.Solved x₀ y)
include hstep hD hS hbot hy

theorem Steps.exists_midway {t : State φ} {n : StmtId} {rest later : List StmtId}
    (hc : t.table.Covers S.nodes) (hq : t.queue = n :: (rest ++ later))
    (ht : Between S H x₀ y b t.table.facts (n :: rest) later) :
    ∃ u, step t = .running u ∧ Midway S H x₀ y (S.workload H ⟨b, b⟩ rest) u := by
  obtain ⟨u, hu, hcu, hfacts, hqueue⟩ := hstep.next hc hq (ht.free n (.head _))
  obtain ⟨later', hrequeue, hbetween⟩ := ht.visit hD hS hbot hy
  exact ⟨u, hu, hcu, b, rest, later', hqueue.trans hrequeue, hfacts ▸ hbetween, rfl⟩

/-- Each step leaves less work, or the work list has ended with the least solution. -/
theorem Steps.of_midway (hK : S.Keeps H) {k : Nat} {t : State φ} (h : Midway S H x₀ y k t) :
    (∃ u j, step t = .running u ∧ Midway S H x₀ y j u ∧ j < k) ∨
      ∃ r, step t = .finished r ∧ S.Concludes y r := by
  obtain ⟨hc, b, rest, later, hq, ht, rfl⟩ := h
  cases rest with
  | cons n rest =>
    obtain ⟨u, hu, hu'⟩ := hstep.exists_midway hD hS hbot hy hc hq ht
    refine .inl ⟨u, _, hu, hu', ?_⟩
    simp [workload]
  | nil =>
    cases later with
    | nil => exact .inr ⟨_, hstep.done hq, t, rfl, hc, ht.eq_of_nil hS hbot hy⟩
    | cons n later =>
      -- The turn pays for the nodes that it takes over.
      have hturn := ht.turn hD hS hK
      obtain ⟨u, hu, hu'⟩ := hstep.exists_midway hD hS hbot hy hc (by simpa using hq) hturn
      refine .inl ⟨u, _, hu, hu', ?_⟩
      have hlt := ht.approximates.potential_advance_lt hS hK
        (ht.unfinished (List.cons_ne_nil n later))
      have hlen := hturn.length_le
      have hmul := Nat.mul_le_mul_right (S.nodes.length + 1) (Nat.succ_le_of_lt hlt)
      rw [Nat.succ_mul] at hmul
      simp only [workload, List.length_nil, List.length_cons] at hlen ⊢
      omega

/-- A work list that starts between an approximation and the least solution ends with the latter. -/
theorem Steps.iterate_between (hK : S.Keeps H) (hc : s.table.Covers S.nodes)
    (hs : Between S H x₀ y b s.table.facts s.queue [])
    (hr : S.nodes.length + H.bound + 3 ≤ rounds) :
    ∃ t : State φ, Progress.iterate step rounds s = .finished (.ok t) ∧
      t.table.Covers S.nodes ∧ t.table.facts ≤ y ∧ y ≤ t.table.facts := by
  have hstart : Midway S H x₀ y (S.workload H ⟨b, b⟩ s.queue) s :=
    ⟨hc, b, s.queue, [], (List.append_nil _).symm, hs, rfl⟩
  have hle : S.workload H ⟨b, b⟩ s.queue ≤
      S.nodes.length * H.bound * (S.nodes.length + 1) + S.nodes.length :=
    Nat.add_le_add (Nat.mul_le_mul_right _ potential_le) hs.length_le
  obtain ⟨r, hr, t, rfl, ht⟩ := Progress.iterate_descends
    (fun _ _ => hstep.of_midway hD hS hbot hy hK) hstart
    (Nat.lt_of_le_of_lt (Nat.succ_le_succ hle) (work_lt_two_pow hr))
  exact ⟨t, hr, ht⟩

end

/-- A work list changes no table whose nodes are settled. -/
theorem Steps.iterate_settled (hstep : S.Steps step) (hc : s.table.Covers S.nodes)
    (hs : ∀ n, S.Free n → S.Settled s.table.facts n) (hq : ∀ n ∈ s.queue, S.Free n)
    (hr : s.queue.length + 1 < 2 ^ rounds) :
    ∃ t : State φ, Progress.iterate step rounds s = .finished (.ok t) ∧ t.table = s.table := by
  have hnext : ∀ t : State φ, (t.table = s.table ∧ ∀ n ∈ t.queue, S.Free n) →
      (∃ u, step t = .running u ∧ (u.table = s.table ∧ ∀ n ∈ u.queue, S.Free n) ∧
        u.queue.length < t.queue.length) ∨
      ∃ r, step t = .finished r ∧ ∃ u : State φ, r = .ok u ∧ u.table = s.table := by
    rintro t ⟨ht, hfree⟩
    cases hqueue : t.queue with
    | nil => exact .inr ⟨_, hstep.done hqueue, t, rfl, ht⟩
    | cons n q =>
      rw [hqueue, List.forall_mem_cons] at hfree
      obtain ⟨u, hu, hcu, hfacts, hqu⟩ := hstep.next (ht ▸ hc) hqueue hfree.1
      have hvisit : S.visit n t.table.facts = t.table.facts := (ht ▸ hs n hfree.1).visit_eq
      have hrequeue : u.queue = q := by
        rw [hqu, requeue, if_pos (by rw [hvisit])]
      have htable : u.table = s.table := by
        rw [hvisit, ht] at hfacts
        apply hcu.eq_of_facts_le hc
        · exact ⟨(congrArg Facts.arriving hfacts).le, (congrArg Facts.leaving hfacts).le⟩
        · exact ⟨(congrArg Facts.arriving hfacts).ge, (congrArg Facts.leaving hfacts).ge⟩
      refine .inl ⟨u, hu, ⟨htable, hrequeue ▸ hfree.2⟩, ?_⟩
      rw [hrequeue]
      exact Nat.lt_succ_self _
  obtain ⟨r, hr, t, rfl, ht⟩ := Progress.iterate_ends (m := fun t => t.queue.length) rounds s
    ⟨rfl, hq⟩ hr hnext
  exact ⟨t, hr, ht⟩

end System

namespace Problem

variable {φ : Type} [SemilatticeSup φ] [OrderBot φ]

/-- The table has the facts of another at the boundary node, and no fact that leaves another node is
above the other table's. The facts that arrive are arbitrary. -/
structure StartsBelow (P : Problem φ) (g : ControlFlowGraph) (t u : Table φ) : Prop where
  covers : u.Covers g.nodes
  arriving_boundary : u.arriving.find? (P.direction.boundaryNode g) =
    t.arriving.find? (P.direction.boundaryNode g)
  leaving_boundary : u.leaving.find? (P.direction.boundaryNode g) =
    t.leaving.find? (P.direction.boundaryNode g)
  leaving : ∀ n ∈ P.direction.order g, ∀ x y, u.leaving.find? n = some x →
    t.leaving.find? n = some y → x ≤ y

/-- Resuming changes no solution, least or not, and leads back to the table `t` from all below it. -/
structure Resumes [DecidableEq φ] (P : Problem φ) (g : ControlFlowGraph) (t : Table φ) : Prop where
  stays : ∀ u, P.Solves g u → P.resume g u = .ok u
  returns : ∀ u, P.StartsBelow g t u → P.resume g u = .ok t

variable {P : Problem φ} {g : ControlFlowGraph} {H : Height φ}

theorem direct : (P.system g).Direct := by
  intro n A A' _ heq
  simp only [system, heq]

namespace StartsBelow

/-- The facts of a node may be replaced, unless it is the boundary node. -/
theorem forget {t : Table φ} (hc : t.Covers g.nodes) {n : StmtId} (hn : n ∈ P.direction.order g)
    (x : φ) {y : φ} (hy : y ≤ t.facts.leaving n) :
    P.StartsBelow g t ((t.setArriving n x).setLeaving n y) := by
  obtain ⟨hmem, hne⟩ := Direction.mem_order.1 hn
  refine ⟨hc.set hmem x y, ?_, ?_, ?_⟩
  · simp [Table.setArriving, Table.setLeaving, hne.symm]
  · simp [Table.setArriving, Table.setLeaving, hne.symm]
  · intro m hm a b ha hb
    simp only [Table.setArriving, Table.setLeaving, SortedMap.find?_insert] at ha
    split at ha
    · next heq =>
      cases ha
      simpa [Table.facts, ← heq, hb] using hy
    · cases ha.symm.trans hb
      exact le_rfl

variable {t u : Table φ} (hu : P.StartsBelow g t u) (hc : t.Covers g.nodes) {n : StmtId}
include hu hc

theorem kept (hn : ¬ (P.system g).Free n) :
    u.facts.arriving n = t.facts.arriving n ∧ u.facts.leaving n = t.facts.leaving n := by
  rw [free_iff, Direction.mem_order, not_and_not_right] at hn
  by_cases hmem : n ∈ g.nodes
  · obtain rfl := hn hmem
    simp only [Table.facts, hu.arriving_boundary, hu.leaving_boundary, and_self]
  · have hnone : ∀ {t : Table φ}, t.Covers g.nodes →
        t.arriving.find? n = none ∧ t.leaving.find? n = none := fun hc =>
      ⟨Option.not_isSome_iff_eq_none.1 (mt (hc n).1.1 hmem),
        Option.not_isSome_iff_eq_none.1 (mt (hc n).2.1 hmem)⟩
    simp only [Table.facts, hnone hc, hnone hu.covers, and_self]

theorem leaving_le : u.facts.leaving ≤ t.facts.leaving := by
  intro n
  by_cases hn : (P.system g).Free n
  · exact hu.leaving n (free_iff.1 hn) _ _ (Table.find?_leaving hu.covers hn.1)
      (Table.find?_leaving hc hn.1)
  · exact (hu.kept hc hn).2.le

end StartsBelow

namespace Monotonic

variable [DecidableEq φ] (h : P.Monotonic g H) (hg : g.Closed) (hnodup : g.nodes.Nodup)
include h hg hnodup

theorem resume_solution {u : Table φ} (hu : P.Solves g u) : P.resume g u = .ok u := by
  obtain ⟨hc, -, hsettled⟩ := (h.solves_iff hg).1 hu
  have hqueue : enqueue [] (P.direction.order g) = P.direction.order g :=
    enqueue_of_nodup (Direction.nodup_order hnodup)
  have hlen : (P.direction.order g).length ≤ g.nodes.length :=
    (List.subperm_of_subset (Direction.nodup_order hnodup)
      fun m hm => (Direction.mem_order.1 hm).1).length_le
  have hrounds : (P.direction.order g).length + 1 < 2 ^ P.rounds g := by
    have hpow : P.rounds g < 2 ^ P.rounds g := Nat.lt_two_pow_self
    unfold rounds at hpow ⊢
    omega
  obtain ⟨s, hs, htable⟩ := h.steps.iterate_settled
    (s := { table := u, queue := P.direction.order g }) hc
    (fun n hn => hsettled n (free_iff.1 hn)) (fun n hn => free_iff.2 hn) hrounds
  simp only [resume, workFrom, run, hqueue, hs, Outcome.map_ok, htable]

theorem resume_below {schedule : Schedule} {t u : Table φ} (ht : P.solve g schedule = .ok t)
    (hu : P.StartsBelow g t u) : P.resume g u = .ok t := by
  obtain ⟨b, t₀, t', hb, harr, hleave, hsolve, hc, hsolved⟩ := h.exists_solved hg hnodup
  cases ht.symm.trans (hsolve schedule)
  obtain ⟨b', hb', hwithin⟩ := h.boundary
  cases hb.symm.trans hb'
  have happ := h.approach hwithin harr hleave
  have hfree : ∀ {n}, (P.system g).Free n → t₀.facts.leaving n = ⊥ := by
    intro n hn
    rw [hleave, Function.update_of_ne (Direction.mem_order.1 (free_iff.1 hn)).2]
    rfl
  have hstart : System.Between (P.system g) H t₀.facts t.facts t₀.facts.leaving u.facts
      (P.direction.order g) [] := {
    approximates := {
      within := fun n => (happ.inHeight n).2
      start_le := le_rfl
      rising := fun hn => (hfree hn).symm ▸ bot_le }
    nodup := by simpa using Direction.nodup_order hnodup
    free := fun n hn => free_iff.2 (by simpa using hn)
    settled := fun n hn hq => (hq (by simpa using free_iff.1 hn)).elim
    kept := fun n => hu.kept hc
    above := by
      intro n
      by_cases hn : (P.system g).Free n
      · rw [hfree hn]
        exact bot_le
      · rw [(hu.kept hc hn).2, (hsolved.kept n hn).2]
    below := hu.leaving_le hc
    advanced := fun n hn hq => (hq (free_iff.1 hn)).elim
    unfinished := fun hne => (hne rfl).elim }
  have hrounds : g.nodes.length + H.bound + 3 ≤ P.rounds g := by
    have hle := h.bound_le
    unfold rounds
    omega
  obtain ⟨s, hs, hsc, hle, hge⟩ := h.steps.iterate_between
    (s := { table := u, queue := P.direction.order g }) direct (h.lawful hg) harr hsolved h.keeps
    hu.covers hstart hrounds
  have hqueue : enqueue [] (P.direction.order g) = P.direction.order g :=
    enqueue_of_nodup (Direction.nodup_order hnodup)
  simp only [resume, workFrom, run, hqueue, hs, Outcome.map_ok, hsc.eq_of_facts_le hc hle hge]

theorem resumes_of_solve {schedule : Schedule} {t : Table φ} (ht : P.solve g schedule = .ok t) :
    P.Resumes g t where
  stays := fun _ => h.resume_solution hg hnodup
  returns := fun _ => h.resume_below hg hnodup ht

end Monotonic

end Problem

end Dataflow

namespace Program

variable {p : Program} {m : MethodId} {g : ControlFlowGraph}

/-- In every method, both analyses return to what they have found when they resume below it. -/
theorem Built.resumes (hp : p.Built) (hg : p.controlFlow m = .ok g) (schedule : Dataflow.Schedule) :
    (∀ t, p.constantPropagation.solve g schedule = .ok t → p.constantPropagation.Resumes g t) ∧
      ∀ t, p.liveVariables.solve g schedule = .ok t → p.liveVariables.Resumes g t := by
  have hl := hp.layout
  obtain ⟨d, -, -, -, -, hnodes, hclosed⟩ := hl.of_controlFlow hg
  have hnodup : g.nodes.Nodup := hnodes ▸ d.nodup_nodes
  constructor
  · exact fun t ht => (hl.monotonic_of_solve_eq_ok hg ht).resumes_of_solve hclosed hnodup ht
  · exact fun t ht => (hl.liveVariables_monotonic hg).resumes_of_solve hclosed hnodup ht

/-- The constant that the main method of the sample assigns is forgotten, and a wrong fact arrives
where it is assigned. -/
theorem Built.resumes_sample : ∃ g t, sample.controlFlow ⟨2⟩ = .ok g ∧
    sample.constantPropagation.solve g .workList = .ok t ∧
    (t.leaving.find? ⟨10⟩).map (·.get ⟨4⟩) = some (.constant 1) ∧
    sample.constantPropagation.resume g t = .ok t ∧
    sample.constantPropagation.resume g
      ((t.setArriving ⟨10⟩ (.ofList [(⟨4⟩, .nac)])).setLeaving ⟨10⟩ ∅) = .ok t := by
  have hrun : (do
      let g ← sample.controlFlow ⟨2⟩
      let t ← sample.constantPropagation.solve g .workList
      return decide (⟨10⟩ ∈ sample.constantPropagation.direction.order g ∧
        (t.leaving.find? ⟨10⟩).map (·.get ⟨4⟩) = some (.constant 1)) : Outcome Bool) = .ok true := by
    decide +kernel
  obtain ⟨g, hg, hrun⟩ := Outcome.bind_eq_ok.1 hrun
  obtain ⟨t, ht, hrun⟩ := Outcome.bind_eq_ok.1 hrun
  obtain ⟨hn, hleave⟩ := of_decide_eq_true (Except.ok.inj hrun)
  have hsolves := sample_built.layout.solves_of_solve_eq_ok hg ht
  have hresumes := (sample_built.resumes hg .workList).1 t ht
  exact ⟨g, t, hg, ht, hleave, hresumes.stays t hsolves,
    hresumes.returns _ (.forget hsolves.covers hn _ bot_le)⟩

end Program

end ProgramFlow
