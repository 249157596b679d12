/-!
Repeating a step until it finishes, within a budget of steps that doubles from round to round.
The budget only makes the repetition total: callers choose it beyond what their step needs.
-/
namespace ProgramFlow

/-- A repetition goes on from a state or has finished with a result. -/
inductive Progress (σ ρ : Type)
  | running (state : σ)
  | finished (result : ρ)

namespace Progress

variable {σ ρ : Type}

/-- Takes up to `2 ^ n` steps. -/
def power (step : σ → Progress σ ρ) : Nat → σ → Progress σ ρ
  | 0, s => step s
  | n + 1, s =>
    match power step n s with
    | .running t => power step n t
    | .finished r => .finished r

/-- Budgets of `2 ^ n`, `2 ^ (n + 1)`, … steps, one for each round. -/
def escalate (step : σ → Progress σ ρ) : Nat → Nat → σ → Progress σ ρ
  | 0, _, s => .running s
  | rounds + 1, n, s =>
    match power step n s with
    | .running t => escalate step rounds (n + 1) t
    | .finished r => .finished r

/-- Takes up to `2 ^ rounds - 1` steps. -/
def iterate (step : σ → Progress σ ρ) (rounds : Nat) (s : σ) : Progress σ ρ :=
  escalate step rounds 0 s

/-- The state satisfies `P` if the repetition goes on, the result satisfies `Q` if it has ended. -/
def Satisfies (P : σ → Prop) (Q : ρ → Prop) : Progress σ ρ → Prop
  | .running s => P s
  | .finished r => Q r

section Invariant

variable {P : σ → Prop} {Q : ρ → Prop} {step : σ → Progress σ ρ}

theorem power_satisfies (h : ∀ s, P s → (step s).Satisfies P Q) (n : Nat) (s : σ) (hs : P s) :
    (power step n s).Satisfies P Q := by
  induction n generalizing s with
  | zero => exact h s hs
  | succ n ih =>
    have h₁ := ih s hs
    simp only [power]
    split
    · next t ht =>
      rw [ht] at h₁
      exact ih t h₁
    · next r hr =>
      rw [hr] at h₁
      exact h₁

theorem escalate_satisfies (h : ∀ s, P s → (step s).Satisfies P Q) (rounds n : Nat) (s : σ)
    (hs : P s) : (escalate step rounds n s).Satisfies P Q := by
  induction rounds generalizing n s with
  | zero => exact hs
  | succ rounds ih =>
    have h₁ := power_satisfies h n s hs
    simp only [escalate]
    split
    · next t ht =>
      rw [ht] at h₁
      exact ih _ t h₁
    · next r hr =>
      rw [hr] at h₁
      exact h₁

/-- What one step keeps, the repetition keeps. -/
theorem iterate_satisfies (h : ∀ s, P s → (step s).Satisfies P Q) (rounds : Nat) (s : σ)
    (hs : P s) : (iterate step rounds s).Satisfies P Q :=
  escalate_satisfies h rounds 0 s hs

end Invariant

end Progress

end ProgramFlow
