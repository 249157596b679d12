import ProgramFlow.PointsTo.Result
import ProgramFlow.Proofs.PointsTo.Steps
/-!
What a points-to analysis that succeeds has recorded is the least solution of the inference rules:
each derivable judgement is recorded once, and nothing else is.
-/
namespace ProgramFlow.PointsTo

variable {p : Program} {σ : Sensitivity} {D : Judgement → Prop} {s : State} {m : MethodId}

theorem State.not_promises_initial (f : Fact) : ¬ State.initial.Promises f := by
  rintro (hf | ⟨x, o, -, objs, hmem, -⟩)
  · cases f with
    | flow x y =>
      have hnil : State.initial.flow.succs x = [] := by
        simp only [FlowGraph.succs, FlowGraph.targetsOf, State.initial, Std.TreeMap.getD_emptyc]
        rfl
      rw [State.Records, hnil] at hf
      cases hf
    | _ => cases hf
  · cases hmem

theorem balanced_initial (hD : Saturated p σ D) :
    Balanced p σ D .initial {J | ∃ m, p.main = some m ∧ J = .reachable [] m} where
  inStep := PointerTable.inStep_empty
  derivable hf := absurd hf (State.not_promises_initial _)
  derivable_due := by
    rintro _ ⟨m, hm, rfl⟩
    exact hD.main hm
  allocates ho := by cases ho
  carries hf := absurd (.inl hf) (State.not_promises_initial _)
  main hm := .inr ⟨_, hm, rfl⟩
  closed hf := absurd (.inl hf) (State.not_promises_initial _)

section

variable (hl : p.Layout) (hD : Saturated p σ D)
include hl hD

/-- All that may be due before the start is that the main method is reachable. -/
theorem Balanced.start {due : Set Judgement} (h : Balanced p σ D s due)
    (hdue : ∀ J ∈ due, ∃ m, p.main = some m ∧ J = .reachable [] m)
    (hstarted : s.started = true → due = ∅) :
    (PointsTo.start p σ).Ensures s fun _ s' => Balanced p σ D s' ∅ := by
  unfold PointsTo.start
  refine .get_bind ?_
  split
  · next hs => exact .pure (hstarted hs ▸ h)
  refine .lift_bind fun m hm => ?_
  have hm := Program.mainMethod_eq_ok.1 hm
  have h : Balanced p σ D s (∅ ∪ {.reachable [] m}) := by
    refine (h.owe (hD.main hm)).congr fun J => ?_
    have hmain : J ∈ due → J = .reachable [] m := by
      intro hJ
      obtain ⟨m', hm', rfl⟩ := hdue J hJ
      cases hm.symm.trans hm'
      rfl
    simpa using hmain
  refine .bind (h.contextId (t := []) rfl) ?_
  rintro c s₁ ⟨-, h₁, hc⟩
  refine .bind h₁.methodId ?_
  rintro main s₂ ⟨hx₂, h₂, hmain⟩
  obtain ⟨hx₃, h₃⟩ := h₂.quiet { s₂ with calls := s₂.calls.addEntry main } (.refl _) rfl rfl
    fun f => by cases f <;> rfl
  refine .modify_bind ?_
  have hread := hx₃.read (State.read_reachable_eq.2 ⟨_, _, hmain, hx₂.trail hc, rfl⟩)
  refine .bind (h₃.reach hl hD hread) ?_
  rintro _ s₄ ⟨-, h₄⟩
  exact .modify (h₄.quiet { s₄ with started := true } (.refl _) rfl rfl
    fun f => by cases f <;> rfl).2

theorem start_initial :
    (start p σ).Ensures .initial fun _ s => Balanced p σ D s ∅ :=
  (balanced_initial hD).start hl hD (fun _ hJ => hJ) nofun

theorem Balanced.repeat_step (h : Balanced p σ D s ∅) (n : Nat) :
    (SolverM.repeatWhile n (PointsTo.step p σ)).Ensures s fun _ s' =>
      Balanced p σ D s' ∅ ∧ s'.pending.toList = [] := by
  refine .repeatWhile (I := (Balanced p σ D · ∅)) (fun s h => ?_) h
  refine (h.step hl hD).mono ?_
  rintro more s' ⟨-, h, hempty⟩
  cases more with
  | true => exact h
  | false => exact ⟨h, hempty rfl⟩

end

theorem solve_ensures (hl : p.Layout) (hs : p.Scoped) : (solve p σ).Ensures .initial fun _ s =>
    Balanced p σ (Derivable p σ) s ∅ ∧ s.pending.toList = [] := by
  have hD : Saturated p σ (Derivable p σ) := Derivable.saturated hl hs
  exact .bind (start_initial hl hD) fun _ s h => h.repeat_step hl hD _

section

variable (hdone : s.pending.toList = [])
include hdone

theorem State.records_of_promises {f : Fact} (h : s.Promises f) : s.Records f := by
  rcases h with h | ⟨x, o, -, objs, hmem, -⟩
  · exact h
  · rw [hdone] at hmem
    cases hmem

theorem State.exists_of_knows {J : Judgement} (h : s.Knows J ∨ J ∈ (∅ : Set Judgement)) :
    ∃ f, s.Records f ∧ s.read f = some J := by
  rcases h with ⟨f, hf, hJ⟩ | hJ
  · exact ⟨f, records_of_promises hdone hf, hJ⟩
  · cases hJ

end

/-- Once nothing is on its way and nothing is due, the facts are closed under the rules. -/
theorem Balanced.exists_of_derivable (h : Balanced p σ D s ∅) (hdone : s.pending.toList = [])
    {J : Judgement} (hJ : Derivable p σ J) : ∃ f, s.Records f ∧ s.read f = some J := by
  have hknown : ∀ {J}, s.Knows J ∨ J ∈ (∅ : Set Judgement) →
      ∃ f, s.Records f ∧ s.read f = some J := State.exists_of_knows hdone
  induction hJ with
  | main hm => exact hknown (h.main hm)
  | immediate hm hs hJ ih =>
    obtain ⟨f, hf, hread⟩ := ih
    exact hknown (h.closed hf hread (.immediate hs hJ))
  | perObject hm hs hb hJ _ ih =>
    obtain ⟨f, hf, hread⟩ := ih
    exact hknown (h.closed hf hread (.perObject hs hJ))
  | linked hi hJ ih =>
    obtain ⟨f, hf, hread⟩ := ih
    exact hknown (h.closed hf hread (.linked hJ))
  | carried hf ha ihf iha =>
    obtain ⟨f, hf, hread⟩ := ihf
    obtain ⟨f', hf', hread'⟩ := iha
    obtain ⟨x, y, rfl, hx, hy⟩ := State.of_read_flow hread
    obtain ⟨x', o, rfl, hx', ho⟩ := State.of_read_pointsTo hread'
    cases State.slot_injective hx hx'
    exact hknown (.inl ⟨_, h.carries hf hf', State.read_pointsTo_eq.2 ⟨_, _, hy, ho, rfl⟩⟩)

/-- The facts of an analysis that succeeds stand one to one for the derivable judgements. -/
theorem solve_exact (hb : p.Built) (hs : p.Scoped)
    (h : (solve p σ).run .initial = (.ok (), s)) :
    (∀ f, s.Records f → ∃ J, s.read f = some J ∧ Derivable p σ J) ∧
    ∀ J, Derivable p σ J → ∃! f, s.Records f ∧ s.read f = some J := by
  obtain ⟨hbal, hdone⟩ := solve_ensures hb.layout hs () s h
  refine ⟨fun f hf => hbal.derivable (.inl hf), fun J hJ => ?_⟩
  obtain ⟨f, hf, hread⟩ := hbal.exists_of_derivable hdone hJ
  exact ⟨f, ⟨hf, hread⟩, fun f' hf' => State.read_injective hf'.2 hread⟩

/-- The receiver of the call in the sample is the cell that it allocates. -/
theorem solve_exact_sample : ∃ s, (solve Program.sample (.object 1)).run .initial = (.ok (), s) ∧
    (∀ f, s.Records f → ∃ J, s.read f = some J ∧ Derivable Program.sample (.object 1) J) ∧
    ∃! f, s.Records f ∧ s.read f = some (.pointsTo (.var [.object ⟨9⟩] ⟨0⟩) ⟨[], ⟨9⟩⟩) := by
  have hrun : ((solve Program.sample (.object 1)).run .initial).1 = .ok () := by decide +kernel
  have hpair : ∀ {r : Except AnalysisError Unit × State}, r.1 = .ok () → ∃ s, r = (.ok (), s) := by
    rintro ⟨_, s⟩ rfl
    exact ⟨s, rfl⟩
  obtain ⟨s, hs⟩ := hpair hrun
  obtain ⟨hsound, hcomplete⟩ := solve_exact Program.sample_built Program.sample_scoped hs
  have hmain : Derivable Program.sample (.object 1) (.reachable [] ⟨2⟩) := .main rfl
  have hcell : Derivable Program.sample (.object 1) (.pointsTo (.var [] ⟨3⟩) ⟨[], ⟨9⟩⟩) :=
    .immediate hmain ⟨_, rfl, by decide, rfl⟩ .new
  exact ⟨s, hs, hsound, hcomplete _ (.perObject hmain (s := ⟨12⟩)
    ⟨_, rfl, by decide, rfl⟩ hcell (.receiver (o := ⟨⟨9⟩, .object ⟨0⟩, ⟨2⟩, ⟨0⟩⟩) rfl
      ⟨_, _, rfl, rfl, by decide, rfl⟩ rfl rfl rfl rfl))⟩

end ProgramFlow.PointsTo
