import ProgramFlow.Proofs.PointsTo.Completion
/-!
A points-to solver serves requests one after the other, also after one of them has failed. Each
request ends, and so does taking entries from the work list: every entry taken leaves more in
reserve, and what finitely many facts can pay is bounded.
-/
namespace ProgramFlow.PointsTo

/-- What may be asked of a solver. -/
inductive Request
  | start | step | solve
  deriving DecidableEq, Repr

def Request.serve (p : Program) (σ : Sensitivity) : Request → SolverM Unit
  | start => PointsTo.start p σ
  | step => do let _ ← PointsTo.step p σ
  | solve => PointsTo.solve p σ

/-- A new solver may come to the state by serving requests, if all its answers are allowed. -/
inductive Served (p : Program) (σ : Sensitivity) (allowed : Except AnalysisError Unit → Prop) :
    State → Prop
  | initial : Served p σ allowed .initial
  | next {s s' answer} (r : Request) (h : Served p σ allowed s)
    (hrun : (r.serve p σ).run s = (answer, s')) (ha : allowed answer) : Served p σ allowed s'

/-- So many steps take an entry each from the work list. -/
inductive Takes (p : Program) (σ : Sensitivity) : Nat → State → State → Prop
  | refl {s} : Takes p σ 0 s s
  | step {n s s' s''} (h : (step p σ).run s = (.ok true, s')) (ht : Takes p σ n s' s'') :
    Takes p σ (n + 1) s s''

/-- The next step finds the work list empty, or it refuses a statement. -/
def Rests (p : Program) (σ : Sensitivity) (D : Judgement → Prop) (s : State) : Prop :=
  s.pending.toList = [] ∧ (step p σ).run s = (.ok false, s) ∨
    ∃ e s', (step p σ).run s = (.error e, s') ∧ Refuses p D e

variable {p : Program} {σ : Sensitivity} {D : Judgement → Prop} {s : State}
  {allowed : Except AnalysisError Unit → Prop}

/-- What every request keeps, by succeeding and by failing, holds in all states. -/
theorem Served.of_keeps {I : State → Prop} (hI : I .initial)
    (hkeeps : ∀ s (r : Request), I s → (r.serve p σ).Attains s (fun _ => I) fun _ => I)
    (h : Served p σ allowed s) : I s := by
  induction h with
  | initial => exact hI
  | next r _ hrun _ ih =>
    obtain ⟨_, s', hrun', hs'⟩ | ⟨e, s', hrun', hs'⟩ := hkeeps _ r ih
    · cases hrun.symm.trans hrun'
      exact hs'
    · cases hrun.symm.trans hrun'
      exact hs'

section

variable (hl : p.Layout) (hv : p.Declared) (hg : p.Grounded) (hD : Tame p σ D)
include hl hv hg hD

theorem Request.serve_attains (h : Solvent p σ D s) (r : Request) :
    (r.serve p σ).Attains s (Refused p σ D) fun _ s' => Solvent p σ D s' := by
  cases r with
  | start => exact (h.start hl hv hg hD).mono fun _ _ hc => hc.solvent h.funds
  | step =>
    refine .bind (Sane.step hl hv hg hD h) fun more s' hs' => .pure ?_
    have hfunds := h.funds
    cases more with
    | true => exact ⟨hs'.1, by have := hs'.2; omega⟩
    | false => exact hs'.1 ▸ h
  | solve => exact h.solve hl hv hg hD

theorem Served.solvent (h : Served p σ allowed s) : Solvent p σ D s :=
  h.of_keeps (solvent_initial hD.toSaturated) fun _ r hs =>
    (r.serve_attains hl hv hg hD hs).imp (fun _ _ => id) fun _ _ he => he.2

/-- The stack of clones that a clone makes reachable is emptied. -/
theorem Solvent.reach_finishes (h : Solvent p σ D s) {c : MethodCloneId} {J : Judgement}
    (hread : s.read (.reachable c) = some J) (hJ : D J) :
    ∃ r, Progress.iterate (reachStep p σ) (rounds p σ) ([c], s) = .finished r := by
  obtain ⟨clone, t, -, -, rfl⟩ := State.read_reachable_eq.1 hread
  have hreach := Sane.reach hl hv hg hD h hJ hread
  generalize hx : Progress.iterate (reachStep p σ) (rounds p σ) ([c], s) = x
  cases x with
  | finished r => exact ⟨r, rfl⟩
  | running u =>
    have hrun : (reach p σ c).run s = (.error .notConverged, u.2) := by
      simp only [reach, ExceptT.run_mk, hx]
    cases (hreach.of_error hrun).1

/-- Entries can be taken from the work list only as long as the reserve grows. -/
theorem Solvent.exists_takes (h : Solvent p σ D s) :
    ∃ n s', Takes p σ n s s' ∧ Rests p σ D s' ∧ n + s.reserve p σ ≤ price p σ * capacity p σ := by
  induction hn : (price p σ * capacity p σ - s.reserve p σ).toNat using Nat.strong_induction_on
    generalizing s with
  | _ k ih =>
    have hfunds := h.funds
    have hle := Solvent.reserve_le hD h.sane
    obtain ⟨more, s₁, hrun, hs₁⟩ | ⟨e, s₁, hrun, he⟩ := Sane.step hl hv hg hD h
    · cases more with
      | false =>
        obtain ⟨rfl, hempty⟩ := hs₁
        exact ⟨0, s₁, .refl, .inl ⟨hempty, hrun⟩, by omega⟩
      | true =>
        obtain ⟨hsane, hreserve⟩ := hs₁
        have hle₁ := Solvent.reserve_le hD hsane
        obtain ⟨n, s', ht, hrests, hbound⟩ := ih _ (by omega) ⟨hsane, by omega⟩ rfl
        exact ⟨n + 1, s', .step hrun ht, hrests, by push_cast; omega⟩
    · exact ⟨0, s, .refl, .inr ⟨e, s₁, hrun, he.1⟩, by omega⟩

end

/-- Whatever a solver has served, the next request ends with success or with the refusal of the
program: the stack of clones that a declared method makes reachable is emptied, and a bounded number
of steps empties the work list or refuses a statement. -/
theorem Served.ends (hb : p.Built) (hv : p.Declared) (hg : p.Grounded)
    (h : Served p σ allowed s) :
    (∀ (r : Request) e s', (r.serve p σ).run s = (.error e, s') →
      Refuses p (Judgement.Proper p σ) e) ∧
    (∀ c J, s.read (.reachable c) = some J → J.Proper p σ →
      ∃ r, Progress.iterate (reachStep p σ) (rounds p σ) ([c], s) = .finished r) ∧
    ∃ n s', Takes p σ n s s' ∧ Rests p σ (Judgement.Proper p σ) s' ∧
      n ≤ price p σ * capacity p σ := by
  have hl := hb.layout
  have hD : Tame p σ (Judgement.Proper p σ) := tame_proper hl hv hg
  have hsolvent := h.solvent hl hv hg hD
  refine ⟨fun r e s' hrun => ?_, fun c J hread hJ => ?_, ?_⟩
  · exact ((r.serve_attains hl hv hg hD hsolvent).of_error hrun).1
  · exact hsolvent.reach_finishes hl hv hg hD hread hJ
  · obtain ⟨n, s', ht, hrests, hbound⟩ := hsolvent.exists_takes hl hv hg hD
    have hfunds := hsolvent.funds
    have hle : (n : Int) ≤ (price p σ * capacity p σ : Nat) := by
      push_cast
      omega
    exact ⟨n, s', ht, hrests, Int.ofNat_le.1 hle⟩

/-- After its start a solver of the sample comes to rest. -/
theorem Served.ends_sample : ∃ s, (start Program.sample (.callSite 1)).run .initial = (.ok (), s) ∧
    (∀ (r : Request) e s', (r.serve Program.sample (.callSite 1)).run s = (.error e, s') →
      Refuses Program.sample (Judgement.Proper Program.sample (.callSite 1)) e) ∧
    ∃ n s', Takes Program.sample (.callSite 1) n s s' ∧
      Rests Program.sample (.callSite 1) (Judgement.Proper Program.sample (.callSite 1)) s' ∧
      n ≤ price Program.sample (.callSite 1) * capacity Program.sample (.callSite 1) := by
  have hrun : ((start Program.sample (.callSite 1)).run .initial).1 = .ok () := by decide +kernel
  obtain ⟨s, hs⟩ := SolverM.exists_run_eq hrun
  have hserved : Served Program.sample (.callSite 1) (fun _ => True) s :=
    .next .start .initial hs trivial
  obtain ⟨hrefuses, -, htakes⟩ := Served.ends Program.sample_built Program.sample_scoped.declared
    Program.sample_grounded hserved
  exact ⟨s, hs, hrefuses, htakes⟩

end ProgramFlow.PointsTo
