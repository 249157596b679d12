import Mathlib.Algebra.Group.Nat.Defs
import Mathlib.Order.Lattice.Nat
import ProgramFlow.Iteration
/-!
Repetitions that end: a step that lowers a measure finishes within a budget above the measure.
-/
namespace ProgramFlow.Progress

variable {σ ρ : Type} {P : σ → Prop} {Q : ρ → Prop} {m : σ → Nat} {step : σ → Progress σ ρ}

/-- Each step that goes on keeps `P` and lowers the measure. -/
def Lowers (P : σ → Prop) (m : σ → Nat) (step : σ → Progress σ ρ) : Prop :=
  ∀ s, P s → ∀ t, step s = .running t → P t ∧ m t < m s

theorem power_lowers (h : Lowers P m step) (n : Nat) (s t : σ) (hs : P s)
    (ht : power step n s = .running t) : P t ∧ m t + 2 ^ n ≤ m s := by
  induction n generalizing s t with
  | zero =>
    have := h s hs t ht
    exact ⟨this.1, by omega⟩
  | succ n ih =>
    simp only [power] at ht
    split at ht
    · next u hu =>
      have h₁ := ih s u hs hu
      have h₂ := ih u t h₁.1 ht
      exact ⟨h₂.1, by omega⟩
    · cases ht

theorem escalate_finishes (h : Lowers P m step) (rounds n : Nat) (s : σ) (hs : P s)
    (hm : m s + 2 ^ n < 2 ^ (n + rounds)) : ∃ r, escalate step rounds n s = .finished r := by
  induction rounds generalizing n s with
  | zero => exact absurd hm (by simp)
  | succ rounds ih =>
    simp only [escalate]
    split
    · next t ht =>
      have h₁ := power_lowers h n s t hs ht
      apply ih (n + 1) t h₁.1
      have : n + 1 + rounds = n + (rounds + 1) := by omega
      rw [this]
      omega
    · next r _ => exact ⟨r, rfl⟩

/-- A step that lowers a measure finishes within a budget above the measure. -/
theorem iterate_finishes (h : Lowers P m step) (rounds : Nat) (s : σ) (hs : P s)
    (hm : m s + 1 < 2 ^ rounds) : ∃ r, iterate step rounds s = .finished r :=
  escalate_finishes h rounds 0 s hs (by simpa using hm)

/-- A repetition whose steps keep `P`, lower a measure and end in `Q` ends in `Q`. -/
theorem iterate_ends (rounds : Nat) (s : σ) (hs : P s) (hm : m s + 1 < 2 ^ rounds)
    (h : ∀ s, P s → (∃ t, step s = .running t ∧ P t ∧ m t < m s) ∨
      ∃ r, step s = .finished r ∧ Q r) :
    ∃ r, iterate step rounds s = .finished r ∧ Q r := by
  have hlow : Lowers P m step := by
    intro s hs t ht
    rcases h s hs with ⟨u, hu, hP, hlt⟩ | ⟨r, hr, -⟩
    · cases hu.symm.trans ht
      exact ⟨hP, hlt⟩
    · cases hr.symm.trans ht
  have hsat : ∀ s, P s → (step s).Satisfies P Q := by
    intro s hs
    rcases h s hs with ⟨t, ht, hP, -⟩ | ⟨r, hr, hQ⟩
    · rw [ht]
      exact hP
    · rw [hr]
      exact hQ
  obtain ⟨r, hr⟩ := iterate_finishes hlow rounds s hs hm
  have hQ := iterate_satisfies hsat rounds s hs
  rw [hr] at hQ
  exact ⟨r, hr, hQ⟩

/-- A repetition ends in `Q` if each step leads from `P` with one index to `P` with a smaller one, or
ends in `Q`. -/
theorem iterate_descends {P : Nat → σ → Prop} (h : ∀ k s, P k s →
      (∃ t j, step s = .running t ∧ P j t ∧ j < k) ∨ ∃ r, step s = .finished r ∧ Q r)
    {k rounds : Nat} {s : σ} (hs : P k s) (hk : k + 1 < 2 ^ rounds) :
    ∃ r, iterate step rounds s = .finished r ∧ Q r := by
  have hleast : ∀ {k s}, P k s → sInf {k | P k s} ≤ k := fun hs => Nat.sInf_le hs
  have hmeasure : sInf {k | P k s} + 1 < 2 ^ rounds :=
    (Nat.succ_le_succ (hleast hs)).trans_lt hk
  refine iterate_ends (P := fun s => ∃ k, P k s) (m := fun s => sInf {k | P k s}) rounds s ⟨k, hs⟩
    hmeasure ?_
  intro s hs
  rcases h _ s (Nat.sInf_mem hs) with ⟨t, j, ht, hj, hlt⟩ | hend
  · exact .inl ⟨t, ht, ⟨j, hj⟩, (hleast hj).trans_lt hlt⟩
  · exact .inr hend

/-- What the steps keep holds of the result if the repetition has ended. -/
theorem of_iterate {rounds : Nat} {s : σ} {r : ρ} (hr : iterate step rounds s = .finished r)
    (h : ∀ s, P s → (step s).Satisfies P Q) (hs : P s) : Q r := by
  have hsat := iterate_satisfies h rounds s hs
  rwa [hr] at hsat

/-- A repetition that has ended took its last step from a state that the steps before it reach. -/
theorem exists_last (h : ∀ s t, P s → step s = .running t → P t) {rounds : Nat} {s : σ} {r : ρ}
    (hs : P s) (hr : iterate step rounds s = .finished r) : ∃ t, P t ∧ step t = .finished r := by
  refine of_iterate (Q := fun r => ∃ t, P t ∧ step t = .finished r) hr (fun s hs => ?_) hs
  cases hstep : step s with
  | running t => exact h s t hs hstep
  | finished r => exact ⟨s, hs, hstep⟩

end ProgramFlow.Progress
