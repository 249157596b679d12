import ProgramFlow.Proofs.PointsTo.Completion
import ProgramFlow.Proofs.PointsTo.Keeping
/-!
The call graph that a points-to analysis finds has the main method for its only entry, and its
reachable methods have statements only that the analysis supports.
-/
namespace ProgramFlow.PointsTo

variable {p : Program} {σ : Sensitivity} {s s' : State} {m : MethodId}

open SolverM

/-! ## The entries -/

theorem exists_main_of_solve (h : (solve p σ).run .initial = (.ok (), s)) :
    ∃ m, p.main = some m := by
  have hstart : (start p σ).Ensures .initial fun _ _ => ∃ m, p.main = some m := by
    unfold start
    exact .get_bind (.lift_bind fun m hm _ _ _ => ⟨m, Program.mainMethod_eq_ok.1 hm⟩)
  have hsolve : (solve p σ).Ensures .initial fun _ _ => ∃ m, p.main = some m :=
    .bind hstart fun _ _ hm _ _ _ => hm
  exact hsolve () s h

/-- A clone of the method is the only entry of the call graph. -/
def State.Entered (s : State) (m : MethodId) : Prop :=
  ∃ c clone, s.calls.entries.toList = [c] ∧ s.elements.methods.get? c = some clone ∧
    clone.method = m

theorem stable_entered (m : MethodId) : Stable (State.Entered · m) := by
  rintro s s' ⟨c, clone, hc, hclone, hm⟩ he - hx
  exact ⟨c, clone, he ▸ hc, hx.methods hclone, hm⟩

theorem keeps_enterMethod_entered (self : MethodCloneId) :
    Keeps (State.Entered · m) (enterMethod p σ self) := by
  unfold enterMethod
  apply Keeps.bind .get
  intro s
  split
  · exact .pure _
  · apply Keeps.bind
    · exact .modify fun _ h => h
    · intro _
      apply Keeps.bind (.bind .get fun _ => .lift _)
      intro clone
      apply Keeps.bind (.lift _)
      intro d
      exact .filterMapM fun _ => keeps_enterStmt (stable_entered m) _ _ _ _

theorem solve_entered (hm : p.main = some m) :
    (solve p σ).Ensures .initial fun _ s => s.Entered m := by
  apply solve_keeps (stable_entered m) keeps_enterMethod_entered
    (K := fun s => s.calls.entries = ∅) (fun s s' h he _ _ => he.trans h) rfl
  intro s c clone hentries hclone hmain
  cases hm.symm.trans hmain
  refine ⟨c, clone, ?_, hclone, rfl⟩
  simp only [CallGraph.addEntry, hentries]
  rfl

/-- The main method is the only entry method of an analysis that succeeds. -/
theorem entryMethods_eq {r : Result} (hm : p.main = some m) (h : analyze p σ = .ok r) :
    r.entryMethods = [m] := by
  obtain ⟨-, -, hrun⟩ := analyze_eq_ok_iff.1 h
  obtain ⟨c, clone, hc, hclone, rfl⟩ := solve_entered hm () _ hrun
  obtain ⟨-, -, -, hentries⟩ := State.tables_eq_ok_iff.1 r.read
  have hmethod := Elements.methodOf_eq_ok_iff.2 ⟨clone, hclone, rfl⟩
  rw [hc] at hentries
  simp only [List.mapM_cons, List.mapM_nil, hmethod, Outcome.ok_bind, Outcome.pure_eq,
    Except.ok.injEq] at hentries
  exact hentries.symm

theorem main_mem_entryMethods {r : Result} (hm : p.main = some m) (h : analyze p σ = .ok r) :
    m ∈ r.entryMethods := by
  rw [entryMethods_eq hm h]
  exact List.mem_singleton_self m

theorem exists_main_of_analyze {r : Result} (h : analyze p σ = .ok r) : ∃ m, p.main = some m := by
  exact exists_main_of_solve (analyze_eq_ok_iff.1 h).2.2

theorem entry_mem_reachableMethods (hl : p.Layout) (hs : p.Scoped) {r : Result}
    (h : analyze p σ = .ok r) (hm : m ∈ r.entryMethods) : m ∈ r.reachableMethods := by
  obtain ⟨entry, hmain⟩ := exists_main_of_analyze h
  rw [entryMethods_eq hmain h, List.mem_singleton] at hm
  obtain ⟨hbal, hdone⟩ := analyze_ensures hl hs h
  exact (Result.mem_reachableMethods hbal hdone).2 ⟨[], hm ▸ .main hmain⟩

/-! ## Supported statements -/

/-- The statement does not assign a reference in an unknown way. -/
def Vetted (p : Program) (n : StmtId) : Prop :=
  ∀ tag v reads x, p.instr n = .ok (.unknown tag (some v) reads) → p.var v = .ok x →
    x.ty.isReference = false

/-- The methods of the reachable clones have vetted statements only, but for one clone perhaps. -/
def State.VettedBut (s : State) (p : Program) (self : Option MethodCloneId) : Prop :=
  ∀ c ∈ s.calls.reachable.toList, self = some c ∨ ∃ clone d,
    s.elements.methods.get? c = some clone ∧ p.method clone.method = .ok d ∧
      ∀ n ∈ d.body, Vetted p n

theorem stable_vettedBut (self : Option MethodCloneId) :
    Stable (State.VettedBut · p self) := by
  rintro s s' h - hr hx c hc
  rw [hr] at hc
  refine (h c hc).imp_right ?_
  rintro ⟨clone, d, hclone, hd, hn⟩
  exact ⟨clone, d, hx.methods hclone, hd, hn⟩

theorem enterStmt_vetted {self : MethodCloneId} {clone : MethodClone} {owner : ClassId}
    {n : StmtId} : (enterStmt p σ self clone owner n).Ensures s fun _ _ => Vetted p n := by
  unfold enterStmt
  refine .lift_bind fun i hi => ?_
  cases i with
  | unknown tag lhs reads =>
    cases lhs with
    | none =>
      refine .pure fun _ _ _ _ hi' => ?_
      cases hi.symm.trans hi'
    | some v =>
      refine .lift_bind fun x hx => ?_
      dsimp only
      split
      · exact .throw_bind
      · next hprimitive =>
        refine .pure fun _ _ _ y hi' hy => ?_
        cases hi.symm.trans hi'
        cases hx.symm.trans hy
        simpa using hprimitive
  | _ =>
    intro _ _ _ _ _ _ _ hi'
    cases hi.symm.trans hi'

theorem keeps_enterMethod_vetted (self : MethodCloneId) :
    Keeps (State.VettedBut · p none) (enterMethod p σ self) := by
  intro s h
  unfold enterMethod
  refine .get_bind ?_
  split
  · exact .pure h
  · have h₁ : State.VettedBut { s with calls := s.calls.addReachable self } p (some self) := by
      intro c hc
      rcases OrderedSet.mem_add.1 hc with rfl | hc
      · exact .inl rfl
      · exact .inr ((h c hc).resolve_left nofun)
    refine .modify_bind (.method_bind fun clone hclone => .lift_bind fun d hd => ?_)
    refine .mono (.filterMapM (r := []) (I := fun r _ s' => s'.VettedBut p (some self) ∧
      s'.elements.methods.get? self = some clone ∧ ∀ n ∈ d.body, n ∈ r ∨ Vetted p n) ?_
      ⟨h₁, hclone, fun n hn => .inl hn⟩) ?_
    · rintro n r - s₁ ⟨h₁, hclone, hbody⟩
      have hstable : Stable fun s' => s'.VettedBut p (some self) ∧
          s'.elements.methods.get? self = some clone := by
        rintro s s' ⟨h, hclone⟩ he hr hx
        exact ⟨stable_vettedBut _ h he hr hx, hx.methods hclone⟩
      intro o s₂ hrun
      have hkeep := keeps_enterStmt hstable self clone d.owner n s₁ ⟨h₁, hclone⟩ o s₂ hrun
      refine ⟨hkeep.1, hkeep.2, fun n' hn' => ?_⟩
      rcases hbody n' hn' with hmem | hv
      · rcases List.mem_cons.1 hmem with rfl | hmem
        · exact .inr (enterStmt_vetted o s₂ hrun)
        · exact .inl hmem
      · exact .inr hv
    · rintro _ s₂ ⟨h₂, hclone, hbody⟩ c hc
      rcases h₂ c hc with heq | hc
      · cases heq
        exact .inr ⟨clone, d, hclone, hd, fun n hn => (hbody n hn).resolve_left nofun⟩
      · exact .inr hc

/-- An analysis that succeeds has met no reachable statement that is beyond it. -/
theorem supported_of_solve (hl : p.Layout) (hs : p.Scoped)
    (h : (solve p σ).run .initial = (.ok (), s)) : Supported p σ := by
  obtain ⟨m, hmain⟩ := exists_main_of_solve h
  have hvetted : s.VettedBut p none := by
    have hstable : Stable (State.VettedBut · p none) := stable_vettedBut none
    exact solve_keeps hstable keeps_enterMethod_vetted hstable nofun (fun _ _ _ h _ _ => h) () s h
  obtain ⟨hb, hdone⟩ := solve_ensures hl hs () s h
  intro t m n tag v reads x hm hn hx
  obtain ⟨f, hf, hread⟩ := hb.exists_of_derivable hdone hm
  obtain ⟨c, clone, rfl, hclone, -, rfl⟩ := State.of_read_reachable hread
  obtain ⟨clone', d, hclone', hd, hbody⟩ := (hvetted c hf).resolve_left nofun
  cases hclone.symm.trans hclone'
  obtain ⟨d', hd', hmem, hi⟩ := hn
  cases hd.symm.trans hd'
  exact hbody n hmem tag v reads x hi hx

end ProgramFlow.PointsTo
