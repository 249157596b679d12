import ProgramFlow.Proofs.PointsTo.Entries
import ProgramFlow.Proofs.PointsTo.Termination
/-!
What a solver has done when it reports success. If it has never refused a statement, all that it
has recorded is worked off. After a refusal it may be asked to go on; it then reports success with
a method that it has not worked off.
-/
namespace ProgramFlow

namespace PointsTo

variable {p : Program} {σ : Sensitivity} {s s' : State}

/-- The statements of the reachable methods and the objects of each variable have had their effect,
calls lead to reachable clones, and nothing is on its way. -/
structure Complete (p : Program) (σ : Sensitivity) (s : State) : Prop where
  finished : s.pending.toList = []
  main : ∀ {m}, p.main = some m → ∃ f, s.Records f ∧ s.read f = some (.reachable [] m)
  vetted : ∀ c ∈ s.calls.reachable.toList, ∃ clone d, s.elements.methods.get? c = some clone ∧
    p.method clone.method = .ok d ∧ ∀ n ∈ d.body, Vetted p n
  readable : ∀ {f}, s.Records f → ∃ J, s.read f = some J
  closed : ∀ {f J J'}, s.Records f → s.read f = some J → Consequence p σ J J' →
    ∃ f', s.Records f' ∧ s.read f' = some J'
  carries : ∀ {x y o}, s.Records (.flow x y) → s.Records (.pointsTo x o) →
    s.Records (.pointsTo y o)
  callee : ∀ {e}, s.Records (.call e) → e.callee ∈ s.calls.reachable.toList

theorem State.Knows.reachable {n : MethodCloneId} {t : Trail} {m : MethodId}
    (h : s.Knows (.reachable t m)) (hn : s.read (.reachable n) = some (.reachable t m)) :
    n ∈ s.calls.reachable.toList := by
  obtain ⟨f, hf, hread⟩ := h
  cases State.read_injective hread hn
  exact hf.resolve_right nofun

namespace Balanced

variable {D : Judgement → Prop} (h : Balanced p σ D s ∅)
include h

theorem knows {f : Fact} {J J' : Judgement} (hf : s.Records f) (hJ : s.read f = some J)
    (hJ' : Consequence p σ J J') : s.Knows J' :=
  (h.closed hf hJ hJ').resolve_right (Set.notMem_empty _)

theorem callee_reachable {e : CallEdge} (he : e ∈ s.calls.edges.toList) :
    e.callee ∈ s.calls.reachable.toList := by
  obtain ⟨J, hread, -⟩ := h.derivable (f := .call e) (.inl he)
  obtain ⟨i, hi, rfl⟩ := State.read_call_eq.1 hread
  obtain ⟨-, -, callee, -, -, hcallee, -, -, ht, -, -, -, hmethod⟩ :=
    State.invocation_eq_some_iff.1 hi
  have hclone : s.read (.reachable e.callee) = some (.reachable i.calleeTrail i.callee) :=
    State.read_reachable_eq.2 ⟨callee, _, hcallee, ht, by rw [hmethod]⟩
  exact (h.knows (f := .call e) he hread (.linked .reachable)).reachable hclone

end Balanced

theorem Balanced.complete {D : Judgement → Prop} (h : Balanced p σ D s ∅)
    (hdone : s.pending.toList = []) (hvetted : s.VettedBut p none) : Complete p σ s := by
  have hknown : ∀ {J}, s.Knows J ∨ J ∈ (∅ : Set Judgement) →
      ∃ f, s.Records f ∧ s.read f = some J := State.exists_of_knows hdone
  have hread : ∀ {f}, s.Records f → ∃ J, s.read f = some J := by
    intro f hf
    obtain ⟨J, hJ, -⟩ := h.derivable (.inl hf)
    exact ⟨J, hJ⟩
  refine ⟨hdone, fun hm => hknown (h.main hm), fun c hc => (hvetted c hc).resolve_left nofun,
    hread, fun hf hJ hJ' => hknown (h.closed hf hJ hJ'),
    fun hxy hxo => State.records_of_promises hdone (h.carries hxy hxo), ?_⟩
  exact h.callee_reachable

theorem keeps_serve_vetted (r : Request) :
    SolverM.Keeps (State.VettedBut · p none) (r.serve p σ) := by
  have hstable : Stable (State.VettedBut · p none) := stable_vettedBut none
  have hstart : SolverM.Keeps (State.VettedBut · p none) (start p σ) := fun s h =>
    start_keeps hstable keeps_enterMethod_vetted hstable h (fun _ => h) fun _ _ _ h _ _ => h
  have hstep := keeps_step (σ := σ) hstable keeps_enterMethod_vetted
  cases r with
  | start => exact hstart
  | step => exact hstep.bind fun _ => .pure _
  | solve => exact hstart.bind fun _ => SolverM.keeps_repeatWhile hstep

theorem Served.answer {allowed : Except AnalysisError Unit → Prop} (h : Served p σ allowed s)
    (r : Request) (ha : allowed ((r.serve p σ).run s).1) :
    Served p σ allowed ((r.serve p σ).run s).2 :=
  h.next r rfl ha

section

variable {D : Judgement → Prop} (hl : p.Layout) (hD : Saturated p σ D)
include hl hD

theorem start_balanced (h : s = .initial ∨ Balanced p σ D s ∅) :
    (start p σ).Ensures s fun _ s' => Balanced p σ D s' ∅ := by
  rcases h with rfl | h
  · exact start_initial hl hD
  · exact h.start hl hD nofun fun _ => rfl

theorem solve_balanced (h : s = .initial ∨ Balanced p σ D s ∅) : (solve p σ).Ensures s fun _ s' =>
    Balanced p σ D s' ∅ ∧ s'.pending.toList = [] :=
  .bind (start_balanced hl hD h) fun _ _ h => h.repeat_step hl hD _

/-- While no request fails, nothing is due but what the start will pay. -/
theorem Served.balanced (h : Served p σ (· = .ok ()) s) :
    s = .initial ∨ Balanced p σ D s ∅ := by
  induction h with
  | initial => exact .inl rfl
  | next r _ hrun hok ih =>
    subst hok
    cases r with
    | start => exact .inr (start_balanced hl hD ih _ _ hrun)
    | step =>
      rcases ih with rfl | h
      · cases hrun
        exact .inl rfl
      · have hstep : (Request.serve p σ .step).Ensures _ fun _ s' => Balanced p σ D s' ∅ :=
          .bind (h.step hl hD) fun _ _ h => .pure h.2.1
        exact .inr (hstep _ _ hrun)
    | solve => exact .inr (solve_balanced hl hD ih _ _ hrun).1

end

theorem Served.vetted (h : Served p σ (· = .ok ()) s) : s.VettedBut p none := by
  induction h with
  | initial => exact nofun
  | next r _ hrun hok ih =>
    subst hok
    exact keeps_serve_vetted r _ ih _ _ hrun

/-- A solver that has refused nothing has worked off all that it knows when it reports success. -/
theorem Served.complete_of_solve (hb : p.Built) (h : Served p σ (· = .ok ()) s)
    (hrun : (solve p σ).run s = (.ok (), s')) : Complete p σ s' := by
  have hD : Saturated p σ fun _ => True := saturated_true
  obtain ⟨hbalanced, hdone⟩ := solve_balanced hb.layout hD (h.balanced hb.layout hD) _ _ hrun
  have hserved : Served p σ (· = .ok ()) s' := h.next .solve hrun rfl
  exact hbalanced.complete hdone hserved.vetted

/-- The sample is solved after a start and a step. -/
theorem Served.complete_of_solve_sample : ∃ s s', Served Program.sample (.object 1) (· = .ok ()) s ∧
    (solve Program.sample (.object 1)).run s = (.ok (), s') ∧
    Complete Program.sample (.object 1) s' := by
  obtain ⟨s, hserved, hok⟩ : ∃ s, Served Program.sample (.object 1) (· = .ok ()) s ∧
      ((solve Program.sample (.object 1)).run s).1 = .ok () :=
    ⟨_, (Served.initial.answer .start (by decide +kernel)).answer .step (by decide +kernel),
      by decide +kernel⟩
  obtain ⟨s', hrun⟩ := SolverM.exists_run_eq hok
  exact ⟨s, s', hserved, hrun, hserved.complete_of_solve Program.sample_built hrun⟩

end PointsTo

namespace Program

open PointsTo

/-- A method that assigns a reference in an unknown way and then allocates an object. -/
def reflecting : Program where
  classes := #[⟨"Main", none, false, [("load", ⟨0⟩), ("main", ⟨1⟩)]⟩]
  fields := #[]
  methods := #[
    ⟨"load", ⟨0⟩, false, false, [], some ⟨0⟩, [], 0, 3⟩,
    ⟨"main", ⟨0⟩, true, false, [], none, [], 5, 3⟩]
  vars := #[
    ⟨"this", .object ⟨0⟩, ⟨0⟩⟩, ⟨"x", .object ⟨0⟩, ⟨0⟩⟩, ⟨"y", .object ⟨0⟩, ⟨0⟩⟩,
    ⟨"c", .object ⟨0⟩, ⟨1⟩⟩]
  stmts := #[
    ⟨⟨0⟩, none, .entry⟩,
    ⟨⟨0⟩, some 0, .unknown "reflection" (some ⟨1⟩) []⟩,
    ⟨⟨0⟩, some 1, .new ⟨2⟩ (.object ⟨0⟩)⟩,
    ⟨⟨0⟩, some 2, .ret none⟩,
    ⟨⟨0⟩, none, .exit⟩,
    ⟨⟨1⟩, none, .entry⟩,
    ⟨⟨1⟩, some 0, .new ⟨3⟩ (.object ⟨0⟩)⟩,
    ⟨⟨1⟩, some 1, .invoke ⟨none, .virtual, ⟨⟨0⟩, "load"⟩, some ⟨3⟩, []⟩⟩,
    ⟨⟨1⟩, some 2, .ret none⟩,
    ⟨⟨1⟩, none, .exit⟩]
  main := some ⟨1⟩

open MethodBuilder in
theorem reflecting_built : reflecting.Built := by
  have hload := (Builder.Assembled.empty.addClass "Main" none).finish ⟨0⟩ "load" false rfl
    (((((Edits.refl.addLocal "x" (.object ⟨0⟩)).addLocal "y" (.object ⟨0⟩)).push
      (.unknown "reflection" (some ⟨1⟩) [])).push (.new ⟨2⟩ (.object ⟨0⟩))).push (.ret none))
  have hmain := hload.finish ⟨0⟩ "main" true rfl
    ((((Edits.refl.addLocal "c" (.object ⟨0⟩)).push (.new ⟨3⟩ (.object ⟨0⟩))).push
      (.invoke ⟨none, .virtual, ⟨⟨0⟩, "load"⟩, some ⟨3⟩, []⟩)).push (.ret none))
  exact ⟨_, hmain.setMain ⟨1⟩, by decide +kernel⟩

/-- A step refuses the assignment, and then the solver reports success. The method counts as
reachable, and the variable that is assigned the new object has no pointer. -/
theorem reflecting_resumed : reflecting.Built ∧ ∃ s₁ s₂ s₃,
    (start reflecting .insensitive).run .initial = (.ok (), s₁) ∧
    (step reflecting .insensitive).run s₁ =
      (.error (.unsupportedConstruct .pointsTo ⟨1⟩ "reflection"), s₂) ∧
    (solve reflecting .insensitive).run s₂ = (.ok (), s₃) ∧
    s₃.calls.reachable.toList = [⟨0⟩, ⟨1⟩] ∧
    s₃.elements.methods.get? ⟨1⟩ = some ⟨⟨0⟩, ⟨0⟩⟩ ∧
    s₃.elements.pointers.rows.map Prod.fst = [.var ⟨0⟩ ⟨3⟩, .var ⟨0⟩ ⟨0⟩] ∧
    ¬ Complete reflecting .insensitive s₃ := by
  have hcomplete : ∀ s : State, s.calls.reachable.toList = [⟨0⟩, ⟨1⟩] →
      s.elements.methods.get? ⟨1⟩ = some ⟨⟨0⟩, ⟨0⟩⟩ → ¬ Complete reflecting .insensitive s := by
    intro s hreachable hclone h
    obtain ⟨clone, d, hclone', hd, hvetted⟩ := h.vetted ⟨1⟩ (by simp [hreachable])
    cases hclone.symm.trans hclone'
    cases hd
    cases hvetted ⟨1⟩ (by decide) "reflection" ⟨1⟩ [] _ rfl rfl
  exact ⟨reflecting_built, _, _, _, SolverM.run_eq (by decide +kernel),
    SolverM.run_eq (by decide +kernel), SolverM.run_eq (by decide +kernel), by decide +kernel,
    by decide +kernel, by decide +kernel, hcomplete _ (by decide +kernel) (by decide +kernel)⟩

end Program

end ProgramFlow
