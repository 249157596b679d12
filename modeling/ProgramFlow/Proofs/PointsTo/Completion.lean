import ProgramFlow.Proofs.PointsTo.Reserve
/-!
The points-to analysis finishes. On a state whose facts are derivable every computation succeeds,
or meets a reachable statement that is beyond the analysis; and what it puts on the work list or on
the stack of clones is paid for by new facts.
-/
namespace ProgramFlow

/-- The statements of a method are among those of the program. -/
theorem Program.Layout.length_body_le {p : Program} (hl : p.Layout) {m : MethodId} {d : MethodDecl}
    (hd : p.method m = .ok d) : d.body.length ≤ p.stmts.size := by
  have hexit : d.first + d.length + 1 < p.stmts.size := fetch_lt (hl.exit hd)
  simp only [MethodDecl.body, List.length_map, List.length_range]
  omega

theorem Program.length_callsOn_le (p : Program) (v : VarId) :
    (p.callsOn v).length ≤ p.stmts.size := by
  have hnumbered : p.numbered.length = p.stmts.size := by
    simp [numbered]
  rw [← hnumbered]
  exact List.length_filterMap_le ..

namespace PointsTo

/-- No reachable statement assigns a reference in an unknown way. -/
def Supported (p : Program) (σ : Sensitivity) : Prop :=
  ∀ ⦃t m s tag v reads x⦄, Derivable p σ (.reachable t m) →
    p.Contains m s (.unknown tag (some v) reads) → p.var v = .ok x → x.ty.isReference = false

/-- The errors of the analysis: there is no main method, or a statement assigns a reference in an
unknown way and its method is reachable as far as the class of judgements says. -/
inductive Refuses (p : Program) (D : Judgement → Prop) : AnalysisError → Prop
  | noMain (hm : p.main = none) : Refuses p D (.invalidProgram .noMain)
  | unknown {t m n tag v reads x} (hm : D (.reachable t m))
    (hn : p.Contains m n (.unknown tag (some v) reads)) (hx : p.var v = .ok x)
    (hr : x.ty.isReference = true) : Refuses p D (.unsupportedConstruct .pointsTo n tag)

/-- A computation that refuses to go on leaves a state that has paid for its work list. -/
def Refused (p : Program) (σ : Sensitivity) (D : Judgement → Prop) (e : AnalysisError)
    (s : State) : Prop :=
  Refuses p D e ∧ Solvent p σ D s

variable {p : Program} {σ : Sensitivity} {D : Judgement → Prop} {s s' : State} {t : Trail}
  {m : MethodId} {l : Location} {n : Nat} {E : AnalysisError → State → Prop}

theorem Supported.not_refuses (hu : Supported p σ) (hm : p.main = some m) (e : AnalysisError) :
    ¬ Refuses p (Derivable p σ) e := by
  rintro (hnone | ⟨hreach, hn, hx, hreference⟩)
  · cases hm.symm.trans hnone
  · cases hreference.symm.trans (hu hreach hn hx)

/-- A method that is reachable is declared. -/
theorem Derivable.exists_method (hg : p.Grounded) (h : Derivable p σ (.reachable t m)) :
    ∃ d, p.method m = .ok d := by
  have hdeclared : ∀ {J}, Derivable p σ J → match J with
      | .reachable _ m => ∃ d, p.method m = .ok d
      | .call i => ∃ d, p.method i.callee = .ok d
      | _ => True := by
    intro J h
    induction h with
    | main hm => exact hg.exists_main hm
    | immediate _ _ hJ =>
      cases hJ with
      | invoke _ hc =>
        obtain ⟨d, hd, -⟩ := Program.method_of_resolve hc
        exact ⟨d, hd⟩
      | _ => trivial
    | perObject _ _ _ hJ =>
      cases hJ with
      | invoke _ _ _ hc =>
        obtain ⟨d, hd, -⟩ := Program.method_of_resolve hc
        exact ⟨d, hd⟩
      | _ => trivial
    | linked _ hJ ih =>
      cases hJ with
      | reachable => exact ih
      | _ => trivial
    | carried => trivial
  exact hdeclared h

namespace Sane

theorem trail_bind {α : Type} {c : ContextId} {f : Context → SolverM α} {Q : α → State → Prop}
    (hc : s.trail c = some t)
    (h : ∀ x, x.elements.map s.mark = t.map some → (f x).Attains s E Q) :
    (SolverM.context c >>= f).Attains s E Q := by
  obtain ⟨x, hx, hmarks⟩ := State.trail_eq_some_iff.1 hc
  exact .context_bind hx (h x hmarks)

theorem passReceiver {c : ContextId} {d : MethodDecl} {o : ObjCloneId} (h : Sane p σ D s)
    (hd : ∀ this ∈ d.receiver, D (.pointsTo (.var t this) l))
    (hc : s.trail c = some t) (ho : s.location o = some l) :
    (PointsTo.passReceiver c d o).Attains s E fun _ s' => Costs p σ D 1 s s' := by
  unfold PointsTo.passReceiver
  split
  · next this hthis =>
    refine .bind (h.pointerId (State.slotOf_var hc this)) ?_
    rintro target s₁ ⟨h₁, htarget⟩
    refine (h₁.sane.send (hd this hthis) htarget (h₁.grows.location ho)).mono ?_
    intro _ s₂ h₂
    exact h₁.trans h₂
  · exact .pure (h.costs.mono (Nat.zero_le 1))

section

variable (hl : p.Layout) (hv : p.Declared) (hg : p.Grounded) (hD : Tame p σ D)
include hD

theorem link {i : Invocation} {call : Call} {d : MethodDecl} {c c' : ContextId}
    (h : Sane p σ D s) (hi : D (.call i)) (hinstr : p.instr i.site = .ok (.invoke call))
    (hd : p.method i.callee = .ok d) (hc : s.trail c = some i.callerTrail)
    (hc' : s.trail c' = some i.calleeTrail) :
    (PointsTo.link c call c' d).Attains s E fun _ s' => Costs p σ D 0 s s' := by
  have hlinked : ∀ {J}, Linked p i J → D J := fun hJ => hD.consequence hi (.linked hJ)
  unfold PointsTo.link
  refine .bind (h.forIn_free fun ⟨arg, param⟩ ha s₁ h₁ => .yield ((h₁.sane.flow hD
    (hlinked (.argument hinstr hd ha)) (State.slotOf_var (h₁.grows.trail hc) arg)
    (State.slotOf_var (h₁.grows.trail hc') param)))) ?_
  rintro _ s₁ h₁
  split
  · next lhs hlhs =>
    refine .bind (h₁.sane.pointerId (State.slotOf_var (h₁.grows.trail hc) lhs)) ?_
    rintro target s₂ ⟨h₂, htarget⟩
    have h₂ := h₁.trans h₂
    refine .bind (h₂.sane.forIn_free fun v hv s₃ h₃ => .bind (h₃.sane.pointerId
      (State.slotOf_var ((h₂.grows.trans h₃.grows).trail hc') v)) ?_) ?_
    · rintro source s₄ ⟨h₄, hsource⟩
      exact .yield (.modify (h₄.trans (h₄.sane.addFlow hD
        (hlinked (.result hinstr hd hlhs hv)) hsource ((h₃.grows.trans h₄.grows).slot htarget))))
    · rintro _ s₃ h₃
      exact .pure (h₂.trans h₃)
  · exact .pure h₁

theorem addCall {i : Invocation} {call : Call} {d : MethodDecl} {c c' : ContextId}
    {caller : MethodCloneId} (h : Sane p σ D s) (hi : D (.call i))
    (hkind : call.kind = i.kind) (hinstr : p.instr i.site = .ok (.invoke call))
    (hd : p.method i.callee = .ok d) (hc : s.trail c = some i.callerTrail)
    (hc' : s.trail c' = some i.calleeTrail)
    (hcaller : s.elements.methods.get? caller = some ⟨c, i.caller⟩) :
    (addCall p c caller i.site call c' i.callee).Attains s E fun o s' =>
      Reaches p σ D 0 o.toList s s' := by
  unfold PointsTo.addCall
  refine .bind (h.callSiteId _) ?_
  rintro site s₁ ⟨h₁, hsite⟩
  refine .bind (h₁.sane.methodId _) ?_
  rintro callee s₂ ⟨h₂, hcallee⟩
  have h₁₂ := h₁.trans h₂
  have hread : s₂.invocation ⟨call.kind, site, callee⟩ = some i :=
    State.invocation_eq_some_iff.2 ⟨_, _, _, h₂.grows.elements.callSites hsite,
      h₁₂.grows.elements.methods hcaller, hcallee, rfl, h₁₂.grows.trail hc, h₁₂.grows.trail hc',
      hkind, rfl, rfl, rfl⟩
  refine .get_bind ?_
  split
  · exact .pure (h₁₂.reaches_nil hD)
  · next hedge =>
    have hnew : .call ⟨call.kind, site, callee⟩ ∉ s₂.facts := fun hf =>
      hedge (Roster.contains_iff.2 ⟨_, hf, rfl⟩)
    obtain ⟨hx₃, h₃, hcount, hreserve⟩ := h₂.sane.record hD hi
      (State.read_call_eq.2 ⟨i, hread, rfl⟩) hnew fun _ => State.records_addCall
    refine .modify_bind (.lift_bind hd ?_)
    generalize { s₂ with calls := s₂.calls.addEdge ⟨call.kind, site, callee⟩ } = s₃
      at hx₃ h₃ hcount hreserve ⊢
    have hx := h₁₂.grows.trans hx₃
    refine .bind (h₃.link hD hi hinstr hd (hx.trail hc) (hx.trail hc')) ?_
    rintro _ s₄ h₄
    refine .pure ⟨⟨hx.trans h₄.grows, h₄.sane, ?_⟩, ?_, ?_⟩
    · have := h₁₂.reserve
      have := h₄.reserve
      omega
    · have := h₁₂.grows.count_le (h₁₂.sane.facts_bounded hD).1
      have := h₄.grows.count_le (h₄.sane.facts_bounded hD).1
      simp only [Option.toList_some, List.length_singleton]
      omega
    · simp only [Option.toList_some, List.mem_singleton]
      rintro _ rfl
      exact ⟨_, _, State.read_reachable_eq.2 ⟨_, _, (hx₃.trans h₄.grows).elements.methods hcallee,
        (hx.trans h₄.grows).trail hc', rfl⟩, hD.consequence hi (.linked .reachable)⟩

theorem enterStmt_new {c : ContextId} {d : MethodDecl} {self : MethodCloneId} {site : StmtId}
    {lhs : VarId} {ty : Ty} (h : Sane p σ D s) (hm : D (.reachable t m))
    (hc : s.trail c = some t) (hd : p.method m = .ok d) (hsite : site ∈ d.body)
    (hi : p.instr site = .ok (.new lhs ty)) :
    (PointsTo.enterStmt p σ self ⟨c, m⟩ d.owner site).Attains s E fun o s' =>
      Reaches p σ D 1 o.toList s s' := by
  unfold PointsTo.enterStmt
  refine .lift_bind hi (.bind (h.allocate ⟨d, lhs, hd, rfl, hsite, hi⟩) ?_)
  rintro obj s₁ ⟨h₁, x, hobj, hxs⟩
  refine trail_bind (h₁.grows.trail hc) fun y hy => ?_
  refine .bind (h₁.sane.contextId (State.marks_heapContext hy)) ?_
  rintro heapContext s₂ ⟨h₂, ht⟩
  refine .bind (h₂.sane.objectId ht (h₂.grows.heap hobj)) ?_
  rintro o s₃ ⟨h₃, ho⟩
  rw [hxs] at ho
  have h₃ := h₁.trans (h₂.trans h₃)
  refine .bind (h₃.sane.pointerId (State.slotOf_var (h₃.grows.trail hc) lhs)) ?_
  rintro target s₄ ⟨h₄, htarget⟩
  have hnew : D (.pointsTo (.var t lhs) ⟨σ.heapTrail t, site⟩) :=
    hD.consequence hm (.immediate ⟨d, hd, hsite, hi⟩ .new)
  refine .bind (h₄.sane.send hnew htarget (h₄.grows.location ho)) ?_
  rintro _ s₅ h₅
  exact .pure ((h₃.trans (h₄.trans h₅)).reaches_nil hD)

include hg

theorem enterStmt_invoke {c : ContextId} {d : MethodDecl} {self : MethodCloneId} {site : StmtId}
    {call : Call} (h : Sane p σ D s) (hm : D (.reachable t m))
    (hself : s.elements.methods.get? self = some ⟨c, m⟩) (hc : s.trail c = some t)
    (hd : p.method m = .ok d) (hsite : site ∈ d.body) (hi : p.instr site = .ok (.invoke call)) :
    (PointsTo.enterStmt p σ self ⟨c, m⟩ d.owner site).Attains s E fun o s' =>
      Reaches p σ D 0 o.toList s s' := by
  unfold PointsTo.enterStmt
  refine .lift_bind hi ?_
  dsimp only
  split
  · exact .pure (h.costs.reaches_nil hD)
  · next hkind =>
    obtain ⟨callee, hcallee⟩ : ∃ o, p.resolve none call = .ok o := hg.exists_resolve hi (by simp)
    refine .lift_bind hcallee ?_
    cases callee with
    | none =>
      exact .bind h.countUnresolved fun _ s₁ h₁ => .pure (h₁.reaches_nil hD)
    | some callee =>
      obtain ⟨d', hd', -⟩ := Program.method_of_resolve hcallee
      refine trail_bind hc fun x hx => ?_
      refine .bind (h.contextId (State.marks_staticContext hx site)) ?_
      rintro c' s₁ ⟨h₁, hc'⟩
      have hcall : D (.call ⟨call.kind, site, m, t, callee, σ.staticTrail t site⟩) :=
        hD.consequence hm (.immediate ⟨d, hd, hsite, hi⟩ (.invoke (by simpa using hkind) hcallee))
      refine (h₁.sane.addCall hD hcall rfl hi hd' (h₁.grows.trail hc) hc'
        (h₁.grows.elements.methods hself)).mono ?_
      intro o s₂ h₂
      exact (h₁.reaches_nil hD).trans h₂

include hl hv

/-- An allocation puts its object on the work list; no other statement costs anything. -/
theorem enterStmt {c : ContextId} {d : MethodDecl} {self : MethodCloneId} {site : StmtId}
    (h : Solvent p σ D s) (hm : D (.reachable t m))
    (hself : s.elements.methods.get? self = some ⟨c, m⟩) (hc : s.trail c = some t)
    (hd : p.method m = .ok d) (hsite : site ∈ d.body) :
    (PointsTo.enterStmt p σ self ⟨c, m⟩ d.owner site).Attains s (Refused p σ D) fun o s' =>
      Reaches p σ D 1 o.toList s s' := by
  obtain ⟨i, hi⟩ := hl.instr_of_mem_nodes hd (MethodDecl.mem_nodes.2 (.inr (.inl hsite)))
  have hcontains : p.Contains m site i := ⟨d, hd, hsite, hi⟩
  have hflow : ∀ {r r' a b}, Immediate p σ t m site i (.flow a b) → s.slotOf r = some a →
      s.slotOf r' = some b → SolverM.Attains (do SolverM.flow r r'; return none) s (Refused p σ D)
        fun o s' => Reaches p σ D 1 o.toList s s' := fun hJ ha hb =>
    .bind (h.sane.flow hD (hD.consequence hm (.immediate hcontains hJ)) ha hb) fun _ s₁ h₁ =>
      .pure ((h₁.mono (Nat.zero_le 1)).reaches_nil hD)
  have hnone : SolverM.Attains (pure none) s (Refused p σ D) fun o s' =>
      Reaches p σ D 1 o.toList s s' :=
    .pure ((h.sane.costs.mono (Nat.zero_le 1)).reaches_nil hD)
  cases i with
  | new lhs ty => exact h.sane.enterStmt_new hD hm hc hd hsite hi
  | invoke call =>
    refine (h.sane.enterStmt_invoke hg hD hm hself hc hd hsite hi).mono fun o s' h' => ?_
    exact ⟨h'.toCosts.mono (Nat.zero_le 1), h'.count, h'.reachable⟩
  | copy lhs rhs =>
    exact .lift_bind hi (hflow .copy (State.slotOf_var hc rhs) (State.slotOf_var hc lhs))
  | cast lhs operand ty =>
    exact .lift_bind hi (hflow .cast (State.slotOf_var hc operand) (State.slotOf_var hc lhs))
  | loadField lhs access =>
    cases access with
    | static f => exact .lift_bind hi (hflow .load rfl (State.slotOf_var hc lhs))
    | «instance» b f => exact .lift_bind hi hnone
  | storeField access rhs =>
    cases access with
    | static f => exact .lift_bind hi (hflow .store (State.slotOf_var hc rhs) rfl)
    | «instance» b f => exact .lift_bind hi hnone
  | unknown tag lhs reads =>
    cases lhs with
    | none => exact .lift_bind hi hnone
    | some v =>
      obtain ⟨y, hy⟩ := hv site _ hi v (.inr rfl)
      refine .lift_bind hi (.lift_bind hy ?_)
      dsimp only
      split
      · next hreference =>
        exact .throw_bind ⟨.unknown hm hcontains hy hreference, h⟩
      · exact hnone
  | _ => exact .lift_bind hi hnone

/-- A new clone pays for the statements of its method. -/
theorem enterMethod {self : MethodCloneId} (h : Solvent p σ D s) (hm : D (.reachable t m))
    (hself : s.read (.reachable self) = some (.reachable t m)) :
    (PointsTo.enterMethod p σ self).Attains s (Refused p σ D) fun callees s' =>
      Reaches p σ D 0 callees s s' := by
  unfold PointsTo.enterMethod
  refine .get_bind ?_
  split
  · exact .pure (h.sane.costs.reaches_nil hD)
  · next hreach =>
    have hnew : .reachable self ∉ s.facts := fun hf =>
      hreach (Roster.contains_iff.2 ⟨_, hf, rfl⟩)
    obtain ⟨hx₁, h₁, hcount, hreserve⟩ := h.sane.record hD hm hself hnew
      fun _ => State.records_addReachable
    refine .modify_bind ?_
    generalize { s with calls := s.calls.addReachable self } = s₁ at hx₁ h₁ hcount hreserve ⊢
    obtain ⟨clone, u, hclone, hc, heq⟩ := State.read_reachable_eq.1 (hx₁.read hself)
    obtain ⟨rfl, rfl⟩ := Judgement.reachable.inj heq
    obtain ⟨d, hd⟩ := (hD.proper hm).2
    have hbody : d.body.length ≤ price p σ := (hl.length_body_le hd).trans (Nat.le_add_left _ _)
    have hfunds := h.funds
    refine .method_bind hclone (.lift_bind hd ?_)
    refine (h₁.filterMapM (n := 1) hD fun n hn i hi s₂ h₂ =>
      enterStmt hl hv hg hD (h₂.solvent (by omega)) hm (h₂.grows.elements.methods hclone)
        (h₂.grows.trail hc) hd hn).mono ?_
    intro callees s₂ h₂
    refine ⟨⟨hx₁.trans h₂.grows, h₂.sane, ?_⟩, ?_, h₂.reachable⟩
    · have := h₂.reserve
      omega
    · have := h₂.count
      omega

theorem reach {self : MethodCloneId} (h : Solvent p σ D s) (hm : D (.reachable t m))
    (hself : s.read (.reachable self) = some (.reachable t m)) :
    (PointsTo.reach p σ self).Attains s (Refused p σ D) fun _ s' => Costs p σ D 0 s s' := by
  have hcapacity : capacity p σ + 2 < 2 ^ rounds p σ := by
    have hmul : 1 * capacity p σ ≤ (capacity p σ + p.stmts.size) * capacity p σ :=
      Nat.mul_le_mul_right _ (Nat.le_add_right_of_le (one_le_capacity p σ))
    have := capacity_lt_rounds p σ
    omega
  obtain ⟨⟨_, s'⟩, hr, ⟨rfl, hcosts⟩ | ⟨e, rfl, he⟩⟩ :
      ∃ r, Progress.iterate (reachStep p σ) (rounds p σ) ([self], s) = .finished r ∧
        (r.1 = .ok () ∧ Costs p σ D 0 s r.2 ∨ ∃ e, r.1 = .error e ∧ Refused p σ D e r.2) := by
    apply Progress.iterate_ends (P := fun r => Costs p σ D 0 s r.2 ∧ ∀ c ∈ r.1, ∃ t m,
        r.2.read (.reachable c) = some (.reachable t m) ∧ D (.reachable t m))
      (m := fun r => r.1.length + (capacity p σ - r.2.count))
    · exact ⟨h.sane.costs, by simpa using ⟨t, m, hself, hm⟩⟩
    · simp only [List.length_singleton]
      omega
    rintro ⟨_ | ⟨c, stack⟩, s₁⟩ ⟨h₁, hstack⟩
    · exact .inr ⟨_, rfl, .inl ⟨rfl, h₁⟩⟩
    · rw [List.forall_mem_cons] at hstack
      obtain ⟨⟨u, n, hread, hn⟩, hstack⟩ := hstack
      obtain ⟨callees, s₂, hrun, h₂⟩ | ⟨e, s₂, hrun, he⟩ :=
        enterMethod hl hv hg hD (h₁.solvent h.funds) hn hread
      · refine .inl ⟨(callees.reverse ++ stack, s₂), ?_, ⟨h₁.trans h₂.toCosts, ?_⟩, ?_⟩
        · simp only [reachStep, hrun]
        · intro c hc
          rcases List.mem_append.1 hc with hc | hc
          · exact h₂.reachable c (List.mem_reverse.1 hc)
          · obtain ⟨u, n, hread, hn⟩ := hstack c hc
            exact ⟨u, n, h₂.grows.read hread, hn⟩
        · have hbound := (h₂.sane.facts_bounded hD).2
          have hcount : s₁.count + callees.length ≤ s₂.count := h₂.count
          simp only [List.length_append, List.length_reverse, List.length_cons]
          omega
      · refine .inr ⟨(.error e, s₂), ?_, .inr ⟨e, rfl, he⟩⟩
        simp only [reachStep, hrun]
  · refine .inl ⟨(), s', ?_, hcosts⟩
    simp only [PointsTo.reach, ExceptT.run_mk, hr]
  · refine .inr ⟨e, s', ?_, he⟩
    simp only [PointsTo.reach, ExceptT.run_mk, hr]

omit hv hg in
/-- The accesses based on a variable add flows only. -/
theorem openAccesses {c : ContextId} {b : VarId} {o : ObjCloneId} (h : Sane p σ D s)
    (hd : D (.pointsTo (.var t b) l)) (hc : s.trail c = some t) (ho : s.location o = some l) :
    (PointsTo.openAccesses p c b o).Attains s E fun _ s' => Costs p σ D 0 s s' := by
  unfold PointsTo.openAccesses
  have hflow : ∀ {J}, _ → D J := fun {J} hJ =>
    hD.consequence hd ((consequence_pointsTo_iff hl (J := J)).2 hJ)
  obtain ⟨y, hy⟩ := (hD.proper hd).2
  refine .lift_bind hy ?_
  refine .bind (h.forIn_free fun ⟨site, f, rhs⟩ ha s₁ h₁ => .yield (h₁.sane.flow hD
    (hflow (.inl ⟨_, ha, rfl⟩)) (State.slotOf_var (h₁.grows.trail hc) rhs)
    (State.slotOf_instanceField (h₁.grows.location ho) f))) ?_
  rintro _ s₁ h₁
  have hc₁ := h₁.grows.trail hc
  have ho₁ := h₁.grows.location ho
  refine .bind (h₁.sane.forIn_free fun ⟨site, lhs, f⟩ ha s₂ h₂ => .yield (h₂.sane.flow hD
    (hflow (.inr (.inl ⟨_, ha, rfl⟩))) (State.slotOf_instanceField (h₂.grows.location ho₁) f)
    (State.slotOf_var (h₂.grows.trail hc₁) lhs))) ?_
  rintro _ s₂ h₂
  have hc₂ := h₂.grows.trail hc₁
  have ho₂ := h₂.grows.location ho₁
  refine .bind (h₂.sane.forIn_free fun ⟨site, rhs⟩ ha s₃ h₃ => .yield (h₃.sane.flow hD
    (hflow (.inr (.inr (.inl ⟨_, ha, rfl⟩)))) (State.slotOf_var (h₃.grows.trail hc₂) rhs)
    (State.slotOf_arrayElement (h₃.grows.location ho₂)))) ?_
  rintro _ s₃ h₃
  have hc₃ := h₃.grows.trail hc₂
  have ho₃ := h₃.grows.location ho₂
  refine .bind (h₃.sane.forIn_free fun ⟨site, lhs⟩ ha s₄ h₄ => .yield (h₄.sane.flow hD
    (hflow (.inr (.inr (.inr (.inl ⟨_, ha, rfl⟩)))))
    (State.slotOf_arrayElement (h₄.grows.location ho₃))
    (State.slotOf_var (h₄.grows.trail hc₃) lhs))) ?_
  rintro _ s₄ h₄
  exact .pure (h₁.trans (h₂.trans (h₃.trans h₄)))

/-- A call costs the entry that passes its receiver. -/
theorem openCall {c : ContextId} {b : VarId} {o : ObjCloneId} {site : StmtId} {call : Call}
    (h : Sane p σ D s) (hfunds : 1 ≤ s.reserve p σ) (hd : D (.pointsTo (.var t b) l))
    (hc : s.trail c = some t) (ho : s.location o = some l) (hcall : (site, call) ∈ p.callsOn b) :
    (PointsTo.openCall p σ c o site call).Attains s (Refused p σ D) fun _ s' =>
      Costs p σ D 1 s s' := by
  unfold PointsTo.openCall
  obtain ⟨clone, obj, hclone, hobj, hct, hol⟩ := State.location_eq_some_iff.1 ho
  obtain ⟨hr, hi⟩ := Program.mem_callsOn.1 hcall
  have halloc : p.Allocates obj := by
    obtain ⟨due, h⟩ := h
    exact h.allocates hobj
  obtain ⟨callee, hcallee⟩ := hg.exists_resolve_object hi halloc
  refine .object_bind hclone (.obj_bind hobj (.lift_bind hcallee ?_))
  cases callee with
  | none => exact h.countUnresolved.mono fun _ s₁ h₁ => h₁.mono (Nat.zero_le 1)
  | some callee =>
    obtain ⟨d, hdecl, -⟩ := Program.method_of_resolve hcallee
    obtain ⟨m, hm⟩ := hl.contains hi rfl
    have hdispatched : ∀ J ∈ dispatched p σ t b l site call, D J := fun J hJ =>
      hD.consequence hd
        ((consequence_pointsTo_iff hl).2 (.inr (.inr (.inr (.inr ⟨_, hcall, hJ⟩)))))
    have hreceiver : ∀ this ∈ d.receiver,
        D (.pointsTo (.var (σ.instanceTrail t site l obj.owner) this) l) :=
      fun this hthis => hdispatched _
        ((mem_dispatched_iff hl hm hr halloc hol hcallee hdecl).2 (.inr ⟨this, hthis, rfl⟩))
    have hinvocation : D (.call
        ⟨call.kind, site, m, t, callee, σ.instanceTrail t site l obj.owner⟩) :=
      hdispatched _ ((mem_dispatched_iff hl hm hr halloc hol hcallee hdecl).2 (.inl rfl))
    refine trail_bind hc fun x hx => trail_bind hct fun y hy => ?_
    refine .bind (h.contextId (State.marks_instanceContext hx hy hobj hol site)) ?_
    rintro c' s₁ ⟨h₁, hc'⟩
    refine .lift_bind hdecl ?_
    refine .bind (h₁.sane.passReceiver hreceiver hc' (h₁.grows.location ho)) ?_
    intro _ s₂ h₂
    obtain ⟨stmt, hstmt, -⟩ := Program.instr_eq_ok.1 hi
    obtain rfl := hm.method_eq hl hstmt
    refine .lift_bind hstmt ?_
    refine .bind (h₂.sane.methodId _) ?_
    rintro caller s₃ ⟨h₃, hcaller⟩
    have hc' := (h₂.grows.trans h₃.grows).trail hc'
    have h₃ := h₁.trans (h₂.trans h₃)
    have hadd := h₃.sane.addCall (E := Refused p σ D) hD hinvocation rfl hi hdecl
      (h₃.grows.trail hc) hc' hcaller
    refine .bind hadd ?_
    intro reached s₄ h₄
    have h₅ := h₃.trans h₄.toCosts
    cases reached with
    | none => exact .pure h₅
    | some callee =>
      obtain ⟨u, n, hread, hn⟩ := h₄.reachable callee (by simp)
      refine (reach hl hv hg hD (h₅.solvent (by simpa using hfunds)) hn hread).mono ?_
      intro _ s₆ h₆
      exact h₅.trans h₆

omit hl hv hg in
/-- The objects that are new at a pointer pay for the entries sent to its successors and for the
calls that they open. -/
theorem absorb (h : Sane p σ D s) {x : PointerId} {objs new : ObjSet}
    {pending : Queue (PointerId × ObjSet)} (hpop : s.pending.pop? = some ((x, objs), pending))
    (habsorb : State.absorb { s with pending, propagations := n } x objs = (new, s')) :
    s.Extends s' ∧ Sane p σ D s' ∧ (∀ o ∈ new, s'.Records (.pointsTo x o)) ∧
      s.reserve p σ + (p.stmts.size * new.toList.length : Nat) + 1 ≤ s'.reserve p σ := by
  obtain ⟨hfinite, hcapacity⟩ := h.facts_bounded hD
  obtain ⟨due, h⟩ := h
  obtain ⟨hx, hrecords, hb⟩ := h.absorb hD.toSaturated hpop habsorb
  have hfresh : ∀ o ∈ new, ¬ s.Records (.pointsTo x o) := fun o ho =>
    ((State.mem_absorbed_iff habsorb).1 ho).2
  have hcount := State.count_add hfinite hfresh fun f => h.records_taken hpop habsorb
  refine ⟨hx, hb.sane, hrecords, ?_⟩
  have hpending : s'.pending.toList.length + 1 ≤
      s.pending.toList.length + capacity p σ * new.toList.length := by
    rw [Queue.toList_of_pop?_eq_some hpop, List.length_cons]
    rcases (State.absorb_cases habsorb).2 with ⟨-, rfl⟩ | ⟨⟨o, ho⟩, rfl⟩
    · exact Nat.le_add_right _ _
    · have hsuccs := (State.length_succs_le hfinite x).trans hcapacity
      have hpos : 1 ≤ new.toList.length := List.length_pos_of_mem (SortedSet.mem_toList.2 ho)
      have hmul := Nat.mul_le_mul_left (capacity p σ) hpos
      simp only [Queue.toList_pushAll, List.length_append, List.length_map]
      omega
  have hprice : price p σ * new.toList.length =
      capacity p σ * new.toList.length + p.stmts.size * new.toList.length := Nat.add_mul ..
  rw [State.reserve, State.reserve, hcount]
  push_cast
  rw [mul_add]
  omega

/-- Taking an entry from the work list leaves more in reserve. -/
theorem step (h : Solvent p σ D s) : (PointsTo.step p σ).Attains s (Refused p σ D) fun more s' =>
    if more then Sane p σ D s' ∧ s.reserve p σ + 1 ≤ s'.reserve p σ
    else s' = s ∧ s.pending.toList = [] := by
  have hfunds := h.funds
  unfold PointsTo.step
  refine .get_bind ?_
  split
  · next hpop => exact .pure ⟨rfl, Queue.pop?_eq_none_iff.1 hpop⟩
  · next x objs pending hpop =>
    obtain ⟨new, s₁, habsorb⟩ : ∃ new s₁, State.absorb
        { s with pending, propagations := s.propagations + 1 } x objs = (new, s₁) := ⟨_, _, rfl⟩
    obtain ⟨hx₁, h₁, hrecords, hreserve⟩ := h.sane.absorb hD hpop habsorb
    refine .modify_bind (.bind (P := fun a s' => new = a ∧ s₁ = s')
      (.modifyGet (by simp [habsorb])) ?_)
    rintro _ _ ⟨rfl, rfl⟩
    split
    · exact .pure ⟨h₁, by omega⟩
    · next hne =>
      obtain ⟨o, ho⟩ := SortedSet.exists_mem hne
      have hread : ∀ o ∈ new, ∃ a l, s₁.slot x = some a ∧ s₁.location o = some l ∧
          D (.pointsTo a l) := by
        intro o ho
        obtain ⟨due, h₁⟩ := h₁
        obtain ⟨J, hJ, hd⟩ := h₁.derivable (.inl (hrecords o ho))
        obtain ⟨a, l, ha, hloc, rfl⟩ := State.read_pointsTo_eq.1 hJ
        exact ⟨a, l, ha, hloc, hd⟩
      obtain ⟨a, -, ha, -⟩ := hread o ho
      obtain ⟨r, hr, hslot⟩ := State.slot_eq_some_iff.1 ha
      refine .get_bind (.lift_bind (fetch_eq_ok_iff.2 hr) ?_)
      split
      · next c v =>
        obtain ⟨t, hc, rfl⟩ := Option.map_eq_some_iff.1 hslot
        refine .bind (h₁.forIn (n := p.stmts.size) fun o ho i hi s₂ h₂ => ?_) ?_
        · obtain ⟨a, l, ha', hloc, hd⟩ := hread o ho
          cases ha.symm.trans ha'
          -- what this object paid has not been touched by the objects before it
          have hpaid : p.stmts.size * i + p.stmts.size ≤ p.stmts.size * new.toList.length := by
            rw [← Nat.mul_succ]
            exact Nat.mul_le_mul_left _ hi
          have hcalls := p.length_callsOn_le v
          have hreserve₂ := h₂.reserve
          refine .bind (h₂.sane.openAccesses hl hD hd (h₂.grows.trail hc)
            (h₂.grows.location hloc)) ?_
          intro _ s₃ h₃
          have hreserve₃ := h₃.reserve
          refine .yield (.mono (h₃.sane.forIn (n := 1) fun x hcall j hj s₄ h₄ => .yield ?_) ?_)
          · have hx₄ := h₂.grows.trans (h₃.grows.trans h₄.grows)
            have hreserve₄ := h₄.reserve
            exact openCall hl hv hg hD h₄.sane (by omega) hd (hx₄.trail hc) (hx₄.location hloc)
              hcall
          · intro _ s₄ h₄
            refine (h₃.trans h₄).mono ?_
            rwa [Nat.zero_add, Nat.one_mul]
        · intro _ s₂ h₂
          have := h₂.reserve
          exact .pure ⟨h₂.sane, by omega⟩
      · exact .pure ⟨h₁, by omega⟩

end

end Sane

theorem solvent_initial (hD : Saturated p σ D) : Solvent p σ D .initial := by
  refine ⟨(balanced_initial hD).sane, ?_⟩
  have hempty : State.initial.pending.toList = [] := rfl
  rw [State.reserve, hempty, List.length_nil, Int.natCast_zero, Int.sub_zero]
  exact Int.mul_nonneg (Int.natCast_nonneg _) (Int.natCast_nonneg _)

namespace Solvent

section

variable (hl : p.Layout) (hv : p.Declared) (hg : p.Grounded) (hD : Tame p σ D)
include hl hv hg hD

/-- A solver may be started more than once. -/
theorem start (h : Solvent p σ D s) :
    (PointsTo.start p σ).Attains s (Refused p σ D) fun _ s' => Costs p σ D 0 s s' := by
  unfold PointsTo.start
  refine .get_bind ?_
  split
  · exact .pure h.sane.costs
  cases hm : p.main with
  | none =>
    have hmain : p.mainMethod = .error (.invalidProgram .noMain) := by
      simp [Program.mainMethod, hm]
    exact .lift_error_bind hmain ⟨.noMain hm, h⟩
  | some m =>
    refine .lift_bind (Program.mainMethod_eq_ok.2 hm) (.bind (h.sane.contextId (t := []) rfl) ?_)
    rintro c s₁ ⟨h₁, hc⟩
    refine .bind (h₁.sane.methodId ⟨c, m⟩) ?_
    rintro main s₂ ⟨h₂, hclone⟩
    refine .modify_bind ?_
    have h₃ : Costs p σ D 0 s₂ { s₂ with calls := s₂.calls.addEntry main } :=
      h₂.sane.quiet (.refl _) rfl rfl fun f => by cases f <;> rfl
    have hread := h₃.grows.read
      (State.read_reachable_eq.2 ⟨_, _, hclone, h₂.grows.trail hc, rfl⟩)
    have h₃ := h₁.trans (h₂.trans h₃)
    refine .bind (Sane.reach hl hv hg hD (h₃.solvent h.funds) (hD.main hm) hread) ?_
    intro _ s₄ h₄
    have h₅ : Costs p σ D 0 s₄ { s₄ with started := true } :=
      h₄.sane.quiet (.refl _) rfl rfl fun f => by cases f <;> rfl
    exact .modify (h₃.trans (h₄.trans h₅))

omit hl hv hg in
theorem reserve_le (h : Sane p σ D s) : s.reserve p σ ≤ price p σ * capacity p σ := by
  have hmul := Nat.mul_le_mul_left (price p σ) (h.facts_bounded hD).2
  unfold State.reserve
  omega

theorem solve (h : Solvent p σ D s) :
    (PointsTo.solve p σ).Attains s (Refused p σ D) fun _ s' => Solvent p σ D s' := by
  refine .bind (h.start hl hv hg hD) fun _ s₁ h₁ => ?_
  refine .repeatWhile (I := Solvent p σ D)
    (m := fun s => (price p σ * capacity p σ - s.reserve p σ).toNat) (fun s h => ?_)
    (h₁.solvent h.funds) ?_
  · refine (Sane.step hl hv hg hD h).mono ?_
    have hfunds := h.funds
    rintro more s' hs'
    cases more with
    | false => exact hs'.1 ▸ h
    | true =>
      obtain ⟨h', hreserve⟩ := hs'
      have hle := reserve_le hD h'
      exact ⟨⟨h', by omega⟩, by omega⟩
  · have hrounds := capacity_lt_rounds p σ
    have hfunds := (h₁.solvent h.funds).funds
    unfold price at *
    omega

end

end Solvent

/-- The analysis succeeds unless a reachable statement is beyond it. -/
theorem exists_solve (hl : p.Layout) (hs : p.Scoped) (hg : p.Grounded) (hm : p.main = some m)
    (hu : Supported p σ) : ∃ s, (solve p σ).run .initial = (.ok (), s) := by
  have hD : Tame p σ (Derivable p σ) := Derivable.tame hl hs hg
  have hsolve := (solvent_initial hD.toSaturated).solve hl hs.declared hg hD
  obtain ⟨_, s, hrun, -⟩ := hsolve.exists_ok fun e _ he => hu.not_refuses hm e he.1
  exact ⟨s, hrun⟩

end PointsTo

end ProgramFlow
