import ProgramFlow.Proofs.Graph.ControlFlow
import ProgramFlow.Proofs.PointsTo.Balance
/-!
Each computation of the points-to analysis pays the judgements it is called for and owes at most
that the clones it answers are reachable.
-/
namespace ProgramFlow.PointsTo

variable {p : Program} {σ : Sensitivity} {D : Judgement → Prop} {s s' : State}
  {due due' : Set Judgement} {t t' : Trail} {m : MethodId} {a b : Slot}

/-- The judgements say of the clones that they are reachable. -/
def State.Reads (s : State) (ms : List MethodCloneId) (Js : List Judgement) : Prop :=
  List.Forall₂ (fun m J => s.read (.reachable m) = some J) ms Js

theorem State.Extends.reads (hx : s.Extends s') {ms : List MethodCloneId} {Js : List Judgement}
    (h : s.Reads ms Js) : s'.Reads ms Js :=
  h.imp fun _ _ => hx.read

/-- All that is still due beside `due` is that these clones are reachable. -/
def Owing (p : Program) (σ : Sensitivity) (D : Judgement → Prop) (due : Set Judgement)
    (ms : List MethodCloneId) (s : State) : Prop :=
  ∃ Js, s.Reads ms Js ∧ Balanced p σ D s (due ∪ {J | J ∈ Js})

namespace Balanced

theorem congr (h : Balanced p σ D s due) (hdue : ∀ J, J ∈ due ↔ J ∈ due') : Balanced p σ D s due' :=
  Set.ext hdue ▸ h

theorem owing_nil (h : Balanced p σ D s due) : Owing p σ D due [] s :=
  ⟨[], .nil, h.congr (by simp)⟩

theorem context_bind {α : Type} {c : ContextId} {f : Context → SolverM α}
    {Q : α → State → Prop} (hc : s.trail c = some t)
    (h : ∀ x, x.elements.map s.mark = t.map some → (f x).Ensures s Q) :
    (SolverM.context c >>= f).Ensures s Q := by
  obtain ⟨y, hy, hmarks⟩ := State.trail_eq_some_iff.1 hc
  refine .context_bind fun x hx => h x ?_
  cases hx.symm.trans hy
  exact hmarks

theorem flow (hD : Saturated p σ D) (h : Balanced p σ D s (due ∪ {.flow a b})) {r r' : Pointer}
    (ha : s.slotOf r = some a) (hb : s.slotOf r' = some b) :
    (SolverM.flow r r').Ensures s fun _ s' => s.Extends s' ∧ Balanced p σ D s' due := by
  refine .bind (h.pointerId ha) ?_
  rintro x s₁ ⟨hx₁, h₁, hxa⟩
  refine .bind (h₁.pointerId (hx₁.slotOf hb)) ?_
  rintro y s₂ ⟨hx₂, h₂, hyb⟩
  obtain ⟨hx₃, h₃⟩ := h₂.addFlow hD (hx₂.slot hxa) hyb
  exact .modify ⟨hx₁.trans (hx₂.trans hx₃), h₃⟩

end Balanced

namespace Owing

theorem balanced (h : Owing p σ D due [] s) : Balanced p σ D s due := by
  obtain ⟨_, ⟨⟩, h⟩ := h
  exact h.congr (by simp)

theorem balanced_singleton {c : MethodCloneId} (h : Owing p σ D due [c] s) :
    ∃ t m, s.read (.reachable c) = some (.reachable t m) ∧
      Balanced p σ D s (due ∪ {.reachable t m}) := by
  obtain ⟨_, _ | ⟨hc, ⟨⟩⟩, h⟩ := h
  obtain ⟨clone, t, -, -, rfl⟩ := State.read_reachable_eq.1 hc
  exact ⟨t, clone.method, hc, h.congr (by simp)⟩

end Owing

namespace Balanced

/-- A loop pays for its items one after the other. -/
theorem forIn {α : Type} {paid : α → Set Judgement} {l : List α}
    {f : α → PUnit → SolverM (ForInStep PUnit)}
    (h : Balanced p σ D s (due ∪ {J | ∃ a ∈ l, J ∈ paid a}))
    (hf : ∀ a ∈ l, ∀ s₁ due, s.Extends s₁ → Balanced p σ D s₁ (due ∪ paid a) →
      (f a ⟨⟩).Ensures s₁ fun r s₂ => r = .yield ⟨⟩ ∧ s₁.Extends s₂ ∧ Balanced p σ D s₂ due) :
    SolverM.Ensures (forIn l PUnit.unit f) s fun _ s' => s.Extends s' ∧ Balanced p σ D s' due := by
  refine .mono (.forIn (I := fun r s' => (∀ a ∈ r, a ∈ l) ∧ s.Extends s' ∧
    Balanced p σ D s' (due ∪ {J | ∃ a ∈ r, J ∈ paid a})) ?_ ⟨fun _ => id, .refl s, h⟩) ?_
  · rintro a r s₁ ⟨hr, hx₁, h₁⟩
    rw [List.forall_mem_cons] at hr
    have h₁ : Balanced p σ D s₁ (due ∪ {J | ∃ a ∈ r, J ∈ paid a} ∪ paid a) :=
      h₁.congr (by simp; grind)
    refine (hf a hr.1 s₁ _ hx₁ h₁).mono ?_
    rintro _ s₂ ⟨rfl, hx₂, h₂⟩
    exact ⟨rfl, hr.2, hx₁.trans hx₂, h₂⟩
  · rintro _ s' ⟨-, hx, h⟩
    exact ⟨hx, h.congr (by simp)⟩

/-- A loop that collects the clones which its items answer. -/
theorem filterMapM {α : Type} {paid : α → Set Judgement} {l : List α}
    {f : α → SolverM (Option MethodCloneId)}
    (h : Balanced p σ D s (due ∪ {J | ∃ a ∈ l, J ∈ paid a}))
    (hf : ∀ a ∈ l, ∀ s₁ due, s.Extends s₁ → Balanced p σ D s₁ (due ∪ paid a) →
      (f a).Ensures s₁ fun o s₂ => s₁.Extends s₂ ∧ Owing p σ D due o.toList s₂) :
    (l.filterMapM f).Ensures s fun ms s' => s.Extends s' ∧ Owing p σ D due ms s' := by
  refine .mono (.filterMapM (r := []) (I := fun r ms s' => (∀ a ∈ r, a ∈ l) ∧ s.Extends s' ∧
    Owing p σ D (due ∪ {J | ∃ a ∈ r, J ∈ paid a}) ms s') ?_ ⟨fun _ => id, .refl s, h.owing_nil⟩) ?_
  · rintro a r ms s₁ ⟨hr, hx₁, Js, hJs, h₁⟩
    rw [List.forall_mem_cons] at hr
    have h₁ : Balanced p σ D s₁ (due ∪ {J | J ∈ Js} ∪ {J | ∃ a ∈ r, J ∈ paid a} ∪ paid a) :=
      h₁.congr (by simp; grind)
    refine (hf a hr.1 s₁ _ hx₁ h₁).mono ?_
    rintro o s₂ ⟨hx₂, Js', hJs', h₂⟩
    exact ⟨hr.2, hx₁.trans hx₂, Js ++ Js', List.rel_append (hx₂.reads hJs) hJs',
      h₂.congr (by simp; grind)⟩
  · rintro ms s₁ ⟨-, hx₁, Js, hJs, h₁⟩
    exact ⟨hx₁, Js, hJs, h₁.congr (by simp)⟩

/-- What a call makes flow into the called method and back. -/
def passed (i : Invocation) (call : Call) (d : MethodDecl) : Set Judgement :=
  {J | ∃ a ∈ call.args.zip d.params,
    J ∈ ({.flow (.var i.callerTrail a.1) (.var i.calleeTrail a.2)} : Set Judgement)}

def returned (i : Invocation) (lhs : VarId) (d : MethodDecl) : Set Judgement :=
  {J | ∃ v ∈ d.returns,
    J ∈ ({.flow (.var i.calleeTrail v) (.var i.callerTrail lhs)} : Set Judgement)}

theorem link (hD : Saturated p σ D) {i : Invocation} {call : Call} {d : MethodDecl}
    {c c' : ContextId}
    (h : Balanced p σ D s (due ∪ {J | ∃ lhs ∈ call.lhs, J ∈ returned i lhs d} ∪ passed i call d))
    (hc : s.trail c = some i.callerTrail) (hc' : s.trail c' = some i.calleeTrail) :
    (PointsTo.link c call c' d).Ensures s fun _ s' => s.Extends s' ∧ Balanced p σ D s' due := by
  unfold PointsTo.link
  refine .bind (h.forIn fun ⟨arg, param⟩ _ s₁ due hx₁ h₁ => .yield (h₁.flow hD
    (State.slotOf_var (hx₁.trail hc) arg) (State.slotOf_var (hx₁.trail hc') param))) ?_
  rintro _ s₁ ⟨hx₁, h₁⟩
  split
  · next lhs hlhs =>
    have h₁ : Balanced p σ D s₁ (due ∪ returned i lhs d) := h₁.congr (by simp [hlhs])
    refine .bind (h₁.pointerId (State.slotOf_var (hx₁.trail hc) lhs)) ?_
    rintro target s₂ ⟨hx₂, h₂, htarget⟩
    have hx₂ := hx₁.trans hx₂
    refine .bind (h₂.forIn fun v _ s₃ due hx₃ h₃ => .bind (h₃.pointerId
      (State.slotOf_var ((hx₂.trans hx₃).trail hc') v)) ?_) ?_
    · rintro source s₄ ⟨hx₄, h₄, hsource⟩
      obtain ⟨hx₅, h₅⟩ := h₄.addFlow hD hsource ((hx₃.trans hx₄).slot htarget)
      exact .yield (.modify ⟨hx₄.trans hx₅, h₅⟩)
    · rintro _ s₃ ⟨hx₃, h₃⟩
      exact .pure ⟨hx₂.trans hx₃, h₃⟩
  · next hnone =>
    have hnone := Option.eq_none_iff_forall_ne_some.2 hnone
    exact .pure ⟨hx₁, h₁.congr (by simp [hnone])⟩

theorem passReceiver {c : ContextId} {d : MethodDecl} {o : ObjCloneId} {l : Location}
    (h : Balanced p σ D s (due ∪ {J | ∃ this ∈ d.receiver, J = .pointsTo (.var t this) l}))
    (hc : s.trail c = some t) (ho : s.location o = some l) :
    (PointsTo.passReceiver c d o).Ensures s fun _ s' => s.Extends s' ∧ Balanced p σ D s' due := by
  unfold PointsTo.passReceiver
  split
  · next this hthis =>
    have h : Balanced p σ D s (due ∪ {.pointsTo (.var t this) l}) := h.congr (by simp [hthis])
    refine .bind (h.pointerId (State.slotOf_var hc this)) ?_
    rintro target s₁ ⟨hx₁, h₁, htarget⟩
    refine (h₁.send htarget (hx₁.location ho)).mono ?_
    rintro _ s₂ ⟨hx₂, h₂⟩
    exact ⟨hx₁.trans hx₂, h₂⟩
  · next hnone =>
    have hnone := Option.eq_none_iff_forall_ne_some.2 hnone
    exact .pure ⟨.refl s, h.congr (by simp [hnone])⟩

section

variable (hl : p.Layout) (hD : Saturated p σ D)
include hD

theorem addCall {i : Invocation} {call : Call} {c c' : ContextId} {caller : MethodCloneId}
    (h : Balanced p σ D s (due ∪ {.call i})) (hkind : call.kind = i.kind)
    (hinstr : p.instr i.site = .ok (.invoke call)) (hc : s.trail c = some i.callerTrail)
    (hc' : s.trail c' = some i.calleeTrail)
    (hcaller : s.elements.methods.get? caller = some ⟨c, i.caller⟩) :
    (addCall p c caller i.site call c' i.callee).Ensures s fun o s' =>
      s.Extends s' ∧ Owing p σ D due o.toList s' := by
  unfold PointsTo.addCall
  refine .bind h.callSiteId ?_
  rintro site s₁ ⟨hx₁, h₁, hsite⟩
  refine .bind h₁.methodId ?_
  rintro callee s₂ ⟨hx₂, h₂, hcallee⟩
  have hx := hx₁.trans hx₂
  have hread : s₂.invocation ⟨call.kind, site, callee⟩ = some i :=
    State.invocation_eq_some_iff.2 ⟨_, _, _, hx₂.elements.callSites hsite,
      hx.elements.methods hcaller, hcallee, rfl, hx.trail hc, hx.trail hc', hkind, rfl, rfl, rfl⟩
  refine .get_bind ?_
  split
  · next hedge =>
    have hedge : s₂.Records (.call ⟨call.kind, site, callee⟩) := by
      obtain ⟨_, he, rfl⟩ := Roster.contains_iff.1 hedge
      exact he
    refine .pure ⟨hx, (h₂.pay Set.subset_union_left ?_).owing_nil⟩
    rintro J (hJ | rfl)
    · exact .inr hJ
    · exact .inl ⟨_, .inl hedge, State.read_call_eq.2 ⟨i, hread, rfl⟩⟩
  · obtain ⟨hx₃, h₃⟩ := h₂.addEdge hD hread
    refine .modify_bind (.lift_bind fun d hd => ?_)
    generalize { s₂ with calls := s₂.calls.addEdge ⟨call.kind, site, callee⟩ } = s₃ at hx₃ h₃ ⊢
    have h₃ : Balanced p σ D s₃ (due ∪ {.reachable i.calleeTrail i.callee} ∪
        {J | ∃ lhs ∈ call.lhs, J ∈ returned i lhs d} ∪ passed i call d) := by
      apply h₃.congr
      intro J
      simp only [returned, passed, consequence_call_iff hinstr hd, Set.mem_union,
        Set.mem_ofPred_eq, Set.mem_singleton_iff]
      grind
    refine .bind (h₃.link hD ((hx.trans hx₃).trail hc) ((hx.trans hx₃).trail hc')) ?_
    rintro _ s₄ ⟨hx₄, h₄⟩
    have hread₄ : s₄.read (.reachable callee) = some (.reachable i.calleeTrail i.callee) :=
      State.read_reachable_eq.2 ⟨_, _, (hx₃.trans hx₄).elements.methods hcallee,
        (hx.trans (hx₃.trans hx₄)).trail hc', rfl⟩
    exact .pure ⟨hx.trans (hx₃.trans hx₄), _, .cons hread₄ .nil, h₄.congr (by simp)⟩

omit hD in
theorem enterStmt_new {c : ContextId} {d : MethodDecl} {self : MethodCloneId} {site : StmtId}
    {lhs : VarId} {ty : Ty}
    (h : Balanced p σ D s (due ∪ {.pointsTo (.var t lhs) ⟨σ.heapTrail t, site⟩}))
    (hc : s.trail c = some t) (hd : p.method m = .ok d) (hsite : site ∈ d.body)
    (hi : p.instr site = .ok (.new lhs ty)) :
    (PointsTo.enterStmt p σ self ⟨c, m⟩ d.owner site).Ensures s fun o s' =>
      s.Extends s' ∧ Owing p σ D due o.toList s' := by
  unfold PointsTo.enterStmt
  refine .lift_bind fun i hi' => ?_
  cases hi.symm.trans hi'
  refine .bind (h.allocate ⟨d, lhs, hd, rfl, hsite, hi⟩) ?_
  rintro obj s₁ ⟨hx₁, h₁, x, hobj, hxs⟩
  refine context_bind (hx₁.trail hc) fun y hy => ?_
  refine .bind (h₁.contextId (State.marks_heapContext hy)) ?_
  rintro heapContext s₂ ⟨hx₂, h₂, ht⟩
  refine .bind (h₂.objectId ht (hx₂.heap hobj)) ?_
  rintro o s₃ ⟨hx₃, h₃, ho⟩
  have hx₃ := hx₁.trans (hx₂.trans hx₃)
  refine .bind (h₃.pointerId (State.slotOf_var (hx₃.trail hc) lhs)) ?_
  rintro target s₄ ⟨hx₄, h₄, htarget⟩
  rw [hxs] at ho
  refine .bind (h₄.send htarget (hx₄.location ho)) ?_
  rintro _ s₅ ⟨hx₅, h₅⟩
  exact .pure ⟨hx₃.trans (hx₄.trans hx₅), h₅.owing_nil⟩

theorem enterStmt_invoke {c : ContextId} {owner : ClassId} {self : MethodCloneId} {site : StmtId}
    {call : Call} (h : Balanced p σ D s (due ∪ {J | Immediate p σ t m site (.invoke call) J}))
    (hself : s.elements.methods.get? self = some ⟨c, m⟩) (hc : s.trail c = some t)
    (hi : p.instr site = .ok (.invoke call)) :
    (PointsTo.enterStmt p σ self ⟨c, m⟩ owner site).Ensures s fun o s' =>
      s.Extends s' ∧ Owing p σ D due o.toList s' := by
  unfold PointsTo.enterStmt
  refine .lift_bind fun i hi' => ?_
  cases hi.symm.trans hi'
  dsimp only
  split
  · next hkind =>
    have hnone : ∀ J, ¬ Immediate p σ t m site (.invoke call) J := by
      intro J hJ
      cases hJ
      contradiction
    exact .pure ⟨.refl s, (h.congr (by simp [hnone])).owing_nil⟩
  · next hkind =>
    refine .lift_bind fun callee hcallee => ?_
    cases callee with
    | none =>
      have hnone : ∀ J, ¬ Immediate p σ t m site (.invoke call) J := by
        intro J hJ
        cases hJ with
        | invoke _ hc => cases hcallee.symm.trans hc
      have h : Balanced p σ D s due := h.congr (by simp [hnone])
      refine .bind h.countUnresolved ?_
      rintro _ s₁ ⟨hx₁, h₁⟩
      exact .pure ⟨hx₁, h₁.owing_nil⟩
    | some callee =>
      have h : Balanced p σ D s
          (due ∪ {.call ⟨call.kind, site, m, t, callee, σ.staticTrail t site⟩}) := by
        refine h.congr fun J => or_congr_right ⟨?_, ?_⟩
        · rintro (_ | _ | _ | _ | _ | ⟨_, hc⟩)
          cases hcallee.symm.trans hc
          rfl
        · rintro rfl
          exact .invoke (by simpa using hkind) hcallee
      refine context_bind hc fun x hx => ?_
      refine .bind (h.contextId (State.marks_staticContext hx site)) ?_
      rintro c' s₁ ⟨hx₁, h₁, hc'⟩
      refine (h₁.addCall hD rfl hi (hx₁.trail hc) hc' (hx₁.elements.methods hself)).mono ?_
      rintro o s₂ ⟨hx₂, h₂⟩
      exact ⟨hx₁.trans hx₂, h₂⟩

/-- The other statements add at most one flow. -/
theorem enterStmt_plain {c : ContextId} {owner : ClassId} {self : MethodCloneId} {site : StmtId}
    {i : Instr} (h : Balanced p σ D s (due ∪ {J | Immediate p σ t m site i J}))
    (hc : s.trail c = some t) (hi : p.instr site = .ok i) (hcall : i.call? = none)
    (hnew : ∀ lhs ty, i ≠ .new lhs ty) :
    (PointsTo.enterStmt p σ self ⟨c, m⟩ owner site).Ensures s fun o s' =>
      s.Extends s' ∧ Owing p σ D due o.toList s' := by
  unfold PointsTo.enterStmt
  refine .lift_bind fun i' hi' => ?_
  cases hi.symm.trans hi'
  have hflow : ∀ {r r' a b}, Immediate p σ t m site i (.flow a b) →
      (∀ J, Immediate p σ t m site i J → J = .flow a b) →
      s.slotOf r = some a → s.slotOf r' = some b →
      SolverM.Ensures (do SolverM.flow r r'; return none) s fun o s' =>
        s.Extends s' ∧ Owing p σ D due o.toList s' := by
    intro r r' a b hJ honly ha hb
    have h : Balanced p σ D s (due ∪ {.flow a b}) :=
      h.congr fun J => or_congr_right ⟨honly J, fun he => he ▸ hJ⟩
    refine .bind (h.flow hD ha hb) ?_
    rintro _ s₁ ⟨hx₁, h₁⟩
    exact .pure ⟨hx₁, h₁.owing_nil⟩
  have hnone : (∀ J, ¬ Immediate p σ t m site i J) →
      SolverM.Ensures (pure none) s fun o s' => s.Extends s' ∧ Owing p σ D due o.toList s' :=
    fun hJ => .pure ⟨.refl s, (h.congr (by simp [hJ])).owing_nil⟩
  cases i with
  | new lhs ty => exact absurd rfl (hnew lhs ty)
  | invoke call => cases hcall
  | copy lhs rhs =>
    exact hflow .copy (by rintro _ ⟨⟩; rfl) (State.slotOf_var hc rhs) (State.slotOf_var hc lhs)
  | cast lhs operand ty =>
    exact hflow .cast (by rintro _ ⟨⟩; rfl) (State.slotOf_var hc operand) (State.slotOf_var hc lhs)
  | loadField lhs access =>
    cases access with
    | static f => exact hflow .load (by rintro _ ⟨⟩; rfl) rfl (State.slotOf_var hc lhs)
    | «instance» b f => exact hnone nofun
  | storeField access rhs =>
    cases access with
    | static f => exact hflow .store (by rintro _ ⟨⟩; rfl) (State.slotOf_var hc rhs) rfl
    | «instance» b f => exact hnone nofun
  | unknown tag lhs reads =>
    cases lhs with
    | none => exact hnone nofun
    | some v =>
      refine .lift_bind fun y hy => ?_
      dsimp only
      split
      · exact .throw_bind
      · exact hnone nofun
  | _ => exact hnone nofun

include hl

/-- A statement pays what it adds as soon as its method is reachable. -/
theorem enterStmt {c : ContextId} {d : MethodDecl} {self : MethodCloneId} {site : StmtId}
    (h : Balanced p σ D s (due ∪ added p σ t m site))
    (hself : s.elements.methods.get? self = some ⟨c, m⟩) (hc : s.trail c = some t)
    (hd : p.method m = .ok d) (hsite : site ∈ d.body) :
    (PointsTo.enterStmt p σ self ⟨c, m⟩ d.owner site).Ensures s fun o s' =>
      s.Extends s' ∧ Owing p σ D due o.toList s' := by
  obtain ⟨i, hi⟩ := hl.instr_of_mem_nodes hd (MethodDecl.mem_nodes.2 (.inr (.inl hsite)))
  have h : Balanced p σ D s (due ∪ {J | Immediate p σ t m site i J}) :=
    h.congr (by simp [added, hi])
  cases i with
  | new lhs ty =>
    have h : Balanced p σ D s (due ∪ {.pointsTo (.var t lhs) ⟨σ.heapTrail t, site⟩}) :=
      h.congr fun J => or_congr_right ⟨by rintro ⟨⟩; rfl, by rintro rfl; exact .new⟩
    exact h.enterStmt_new hc hd hsite hi
  | invoke call => exact h.enterStmt_invoke hD hself hc hi
  | _ => exact h.enterStmt_plain hD hc hi rfl (by simp)

theorem enterMethod {self : MethodCloneId} (h : Balanced p σ D s (due ∪ {.reachable t m}))
    (hself : s.read (.reachable self) = some (.reachable t m)) :
    (PointsTo.enterMethod p σ self).Ensures s fun callees s' =>
      s.Extends s' ∧ Owing p σ D due callees s' := by
  unfold PointsTo.enterMethod
  refine .get_bind ?_
  split
  · next hreach =>
    have hreach : s.Records (.reachable self) := by
      obtain ⟨_, hm, rfl⟩ := Roster.contains_iff.1 hreach
      exact hm
    refine .pure ⟨.refl s, (h.pay Set.subset_union_left ?_).owing_nil⟩
    rintro J (hJ | rfl)
    · exact .inr hJ
    · exact .inl ⟨_, .inl hreach, hself⟩
  · obtain ⟨hx₁, h₁⟩ := h.addReachable hD hself
    refine .modify_bind ?_
    generalize { s with calls := s.calls.addReachable self } = s₁ at hx₁ h₁ ⊢
    obtain ⟨clone, u, hclone, hc, heq⟩ := State.read_reachable_eq.1 (hx₁.read hself)
    obtain ⟨rfl, rfl⟩ := Judgement.reachable.inj heq
    refine .method_bind fun clone' hclone' => ?_
    cases hclone.symm.trans hclone'
    refine .lift_bind fun d hd => ?_
    have h₁ : Balanced p σ D s₁ (due ∪ {J | ∃ n ∈ d.body, J ∈ added p σ u clone.method n}) :=
      h₁.congr (by simp [consequence_reachable_iff hd])
    refine (h₁.filterMapM fun n hn s₂ due hx₂ h₂ => h₂.enterStmt hl hD
      (hx₂.elements.methods hclone) (hx₂.trail hc) hd hn).mono ?_
    rintro callees s₂ ⟨hx₂, h₂⟩
    exact ⟨hx₁.trans hx₂, h₂⟩

/-- What the stack of clones holds is all that is due while clones are being reached. -/
theorem reachStep {r : List MethodCloneId × State} (hx : s.Extends r.2)
    (h : Owing p σ D due r.1 r.2) :
    (PointsTo.reachStep p σ r).Satisfies (fun r' => s.Extends r'.2 ∧ Owing p σ D due r'.1 r'.2)
      (fun r' => r'.1 = .ok () → s.Extends r'.2 ∧ Balanced p σ D r'.2 due) := by
  obtain ⟨_ | ⟨c, stack⟩, s₁⟩ := r
  · obtain ⟨_, ⟨⟩, h⟩ := h
    exact fun _ => ⟨hx, h.congr (by simp)⟩
  · obtain ⟨_, _ | ⟨hc, hstack⟩, h⟩ := h
    next J Js =>
    obtain ⟨clone, t, -, -, rfl⟩ := State.read_reachable_eq.1 hc
    have h : Balanced p σ D s₁ (due ∪ {J | J ∈ Js} ∪ {.reachable t clone.method}) :=
      h.congr (by simp; grind)
    simp only [PointsTo.reachStep]
    split
    · next callees s₂ hrun =>
      obtain ⟨hx₂, Js', hJs', h₂⟩ := h.enterMethod hl hD hc callees s₂ hrun
      exact ⟨hx.trans hx₂, Js'.reverse ++ Js,
        List.rel_append (List.rel_reverse hJs') (hx₂.reads hstack), h₂.congr (by simp; grind)⟩
    · exact nofun

theorem reach {self : MethodCloneId} (h : Balanced p σ D s (due ∪ {.reachable t m}))
    (hself : s.read (.reachable self) = some (.reachable t m)) :
    (PointsTo.reach p σ self).Ensures s fun _ s' => s.Extends s' ∧ Balanced p σ D s' due := by
  intro _ s' hr
  simp only [PointsTo.reach, ExceptT.run_mk] at hr
  split at hr
  · next r hfin =>
    subst hr
    have h : Owing p σ D due [self] s :=
      ⟨[.reachable t m], .cons hself .nil, h.congr (by simp)⟩
    exact Progress.of_iterate hfin (P := fun r => s.Extends r.2 ∧ Owing p σ D due r.1 r.2)
      (Q := fun r => r.1 = .ok () → s.Extends r.2 ∧ Balanced p σ D r.2 due)
      (fun r hr => reachStep hl hD hr.1 hr.2) ⟨.refl s, h⟩ rfl
  · cases hr

theorem openAccesses {c : ContextId} {b : VarId} {o : ObjCloneId} {l : Location}
    (h : Balanced p σ D s (due ∪ {J | Consequence p σ (.pointsTo (.var t b) l) J}))
    (hc : s.trail c = some t) (ho : s.location o = some l) :
    (PointsTo.openAccesses p c b o).Ensures s fun _ s' => s.Extends s' ∧
      Balanced p σ D s' (due ∪ {J | ∃ x ∈ p.callsOn b, J ∈ dispatched p σ t b l x.1 x.2}) := by
  unfold PointsTo.openAccesses
  refine .lift_bind fun _ _ => ?_
  have h : Balanced p σ D s (due ∪ {J | ∃ x ∈ p.callsOn b, J ∈ dispatched p σ t b l x.1 x.2} ∪
      {J | ∃ x ∈ p.arrayLoads b, J ∈ ({.flow (.arrayElement l) (.var t x.2)} : Set Judgement)} ∪
      {J | ∃ x ∈ p.arrayStores b, J ∈ ({.flow (.var t x.2) (.arrayElement l)} : Set Judgement)} ∪
      {J | ∃ x ∈ p.fieldLoads b,
        J ∈ ({.flow (.instanceField l x.2.2) (.var t x.2.1)} : Set Judgement)} ∪
      {J | ∃ x ∈ p.fieldStores b,
        J ∈ ({.flow (.var t x.2.2) (.instanceField l x.2.1)} : Set Judgement)}) := by
    refine h.congr fun J => ?_
    simp only [consequence_pointsTo_iff hl, Set.mem_union, Set.mem_ofPred_eq, Set.mem_singleton_iff]
    grind
  refine .bind (h.forIn fun ⟨_, f, rhs⟩ _ s₁ due hx₁ h₁ => .yield (h₁.flow hD
    (State.slotOf_var (hx₁.trail hc) rhs) (State.slotOf_instanceField (hx₁.location ho) f))) ?_
  rintro _ s₁ ⟨hx₁, h₁⟩
  refine .bind (h₁.forIn fun ⟨_, lhs, f⟩ _ s₂ due hx₂ h₂ => .yield (h₂.flow hD
    (State.slotOf_instanceField ((hx₁.trans hx₂).location ho) f)
    (State.slotOf_var ((hx₁.trans hx₂).trail hc) lhs))) ?_
  rintro _ s₂ ⟨hx₂, h₂⟩
  have hx₂ := hx₁.trans hx₂
  refine .bind (h₂.forIn fun ⟨_, rhs⟩ _ s₃ due hx₃ h₃ => .yield (h₃.flow hD
    (State.slotOf_var ((hx₂.trans hx₃).trail hc) rhs)
    (State.slotOf_arrayElement ((hx₂.trans hx₃).location ho)))) ?_
  rintro _ s₃ ⟨hx₃, h₃⟩
  have hx₃ := hx₂.trans hx₃
  refine .bind (h₃.forIn fun ⟨_, lhs⟩ _ s₄ due hx₄ h₄ => .yield (h₄.flow hD
    (State.slotOf_arrayElement ((hx₃.trans hx₄).location ho))
    (State.slotOf_var ((hx₃.trans hx₄).trail hc) lhs))) ?_
  rintro _ s₄ ⟨hx₄, h₄⟩
  exact .pure ⟨hx₃.trans hx₄, h₄⟩

theorem openCall {c : ContextId} {b : VarId} {o : ObjCloneId} {l : Location} {site : StmtId}
    {call : Call} (h : Balanced p σ D s (due ∪ dispatched p σ t b l site call))
    (hc : s.trail c = some t) (ho : s.location o = some l) (hcall : (site, call) ∈ p.callsOn b) :
    (PointsTo.openCall p σ c o site call).Ensures s fun _ s' =>
      s.Extends s' ∧ Balanced p σ D s' due := by
  unfold PointsTo.openCall
  obtain ⟨clone, obj, hclone, hobj, hct, hol⟩ := State.location_eq_some_iff.1 ho
  refine .object_bind fun clone' hclone' => ?_
  cases hclone.symm.trans hclone'
  refine .obj_bind fun obj' hobj' => ?_
  cases hobj.symm.trans hobj'
  have hobj := h.allocates hobj
  refine .lift_bind fun callee hcallee => ?_
  cases callee with
  | none =>
    have h : Balanced p σ D s due :=
      h.congr (by simp [not_mem_dispatched hl hobj hol hcallee])
    exact h.countUnresolved
  | some callee =>
    refine context_bind hc fun x hx => context_bind hct fun y hy => ?_
    refine .bind (h.contextId (State.marks_instanceContext hx hy ‹_› hol site)) ?_
    rintro c' s₁ ⟨hx₁, h₁, hc'⟩
    refine .lift_bind fun d hd => ?_
    obtain ⟨hr, hi⟩ := Program.mem_callsOn.1 hcall
    obtain ⟨m, hm⟩ := hl.contains hi rfl
    have h₁ : Balanced p σ D s₁ (due ∪
        {.call ⟨call.kind, site, m, t, callee, σ.instanceTrail t site l obj.owner⟩} ∪
        {J | ∃ this ∈ d.receiver,
          J = .pointsTo (.var (σ.instanceTrail t site l obj.owner) this) l}) := by
      refine h₁.congr fun J => ?_
      simp only [Set.mem_union, Set.mem_ofPred_eq, Set.mem_singleton_iff,
        mem_dispatched_iff hl hm hr hobj hol hcallee hd, or_assoc]
    refine .bind (h₁.passReceiver hc' (hx₁.location ho)) ?_
    rintro _ s₂ ⟨hx₂, h₂⟩
    refine .lift_bind fun stmt hstmt => ?_
    obtain rfl := hm.method_eq hl hstmt
    refine .bind h₂.methodId ?_
    rintro caller s₃ ⟨hx₃, h₃, hcaller⟩
    have hc' := (hx₂.trans hx₃).trail hc'
    have hx₃ := hx₁.trans (hx₂.trans hx₃)
    refine .bind (h₃.addCall hD rfl hi (hx₃.trail hc) hc' hcaller) ?_
    rintro reached s₄ ⟨hx₄, h₄⟩
    have hx₄ := hx₃.trans hx₄
    cases reached with
    | none => exact .pure ⟨hx₄, h₄.balanced⟩
    | some callee =>
      obtain ⟨u, n, hread, h₄⟩ := h₄.balanced_singleton
      refine (h₄.reach hl hD hread).mono ?_
      rintro _ s₅ ⟨hx₅, h₅⟩
      exact ⟨hx₄.trans hx₅, h₅⟩

omit hl hD in
/-- Nothing follows from the objects of a pointer that is no variable. -/
theorem pay_objects {x : PointerId} {new : ObjSet} (h : Balanced p σ D s (due ∪
      {J' | ∃ o ∈ new, ∃ J, s.read (.pointsTo x o) = some J ∧ Consequence p σ J J'}))
    (ha : s.slot x = some a) (hvar : ∀ t v, a ≠ .var t v) : Balanced p σ D s due := by
  refine h.pay Set.subset_union_left ?_
  rintro J (hJ | ⟨o, -, J', hJ', hJ⟩)
  · exact .inr hJ
  · obtain ⟨a', l, ha', -, rfl⟩ := State.read_pointsTo_eq.1 hJ'
    cases ha.symm.trans ha'
    cases hJ
    exact absurd rfl (hvar _ _)

omit hl hD in
/-- The new objects of a pointer have locations, and the pointer has a slot. -/
theorem exists_slot (h : Balanced p σ D s due) {x : PointerId} {new : ObjSet}
    (hnew : ∀ o ∈ new, s.Records (.pointsTo x o)) (hne : ∃ o, o ∈ new) :
    (∃ a, s.slot x = some a) ∧ ∀ o ∈ new, ∃ l, s.location o = some l := by
  have hread : ∀ o ∈ new, ∃ a l, s.slot x = some a ∧ s.location o = some l := by
    intro o ho
    obtain ⟨J, hJ, -⟩ := h.derivable (.inl (hnew o ho))
    obtain ⟨a, l, ha, hl, -⟩ := State.read_pointsTo_eq.1 hJ
    exact ⟨a, l, ha, hl⟩
  obtain ⟨o, ho⟩ := hne
  obtain ⟨a, -, ha, -⟩ := hread o ho
  refine ⟨⟨a, ha⟩, fun o ho => ?_⟩
  obtain ⟨_, l, -, hl⟩ := hread o ho
  exact ⟨l, hl⟩

/-- Taking an entry from the work list opens the statements based on the variable it is for. -/
theorem step (h : Balanced p σ D s due) : (PointsTo.step p σ).Ensures s fun more s' =>
    s.Extends s' ∧ Balanced p σ D s' due ∧ (more = false → s'.pending.toList = []) := by
  unfold PointsTo.step
  refine .get_bind ?_
  split
  · next hpop => exact .pure ⟨.refl s, h, fun _ => Queue.pop?_eq_none_iff.1 hpop⟩
  · next x objs pending hpop =>
    refine .modify_bind (.bind (P := fun new s' => s.Extends s' ∧
      (∀ o ∈ new, s'.Records (.pointsTo x o)) ∧ Balanced p σ D s' (due ∪
        {J' | ∃ o ∈ new, ∃ J, s'.read (.pointsTo x o) = some J ∧ Consequence p σ J J'}))
      (.modifyGet (h.absorb hD hpop rfl)) ?_)
    rintro new s₁ ⟨hx₁, hnew, h₁⟩
    split
    · next hempty =>
      exact .pure ⟨hx₁, h₁.congr (by simp [SortedSet.isEmpty_iff.1 hempty]), by simp⟩
    · next hne =>
      obtain ⟨⟨a, ha⟩, hloc⟩ := h₁.exists_slot hnew (SortedSet.exists_mem hne)
      refine .get_bind (.lift_bind fun r hr => ?_)
      have hr : s₁.slotOf r = some a := State.slotOf_of_slot ha (fetch_eq_ok_iff.1 hr)
      have hother : (∀ t v, a ≠ .var t v) → SolverM.Ensures (pure true) s₁ fun more s' =>
          s.Extends s' ∧ Balanced p σ D s' due ∧ (more = false → s'.pending.toList = []) :=
        fun hvar => .pure ⟨hx₁, h₁.pay_objects ha hvar, by simp⟩
      cases r with
      | var c v =>
        obtain ⟨t, hc, rfl⟩ := Option.map_eq_some_iff.1 hr
        have h₁ : Balanced p σ D s₁ (due ∪ {J | ∃ o ∈ new.toList, J ∈ {J' | ∃ l,
            s₁.location o = some l ∧ Consequence p σ (.pointsTo (.var t v) l) J'}}) :=
          h₁.congr (by simp [State.read_pointsTo_eq, ha, SortedSet.mem_toList])
        refine .bind (h₁.forIn fun o ho s₂ due hx₂ h₂ => ?_) ?_
        · obtain ⟨l, hloc⟩ := hloc o ho
          have h₂ : Balanced p σ D s₂ (due ∪ {J | Consequence p σ (.pointsTo (.var t v) l) J}) :=
            h₂.congr (by simp [hloc])
          refine .bind (h₂.openAccesses hl hD (hx₂.trail hc) (hx₂.location hloc)) ?_
          rintro _ s₃ ⟨hx₃, h₃⟩
          refine .yield (.mono (h₃.forIn ?_) ?_)
          · rintro ⟨site, call⟩ hcall s₄ due hx₄ h₄
            have hx₄ := hx₂.trans (hx₃.trans hx₄)
            exact .yield (h₄.openCall hl hD (hx₄.trail hc) (hx₄.location hloc) hcall)
          · rintro _ s₄ ⟨hx₄, h₄⟩
            exact ⟨hx₃.trans hx₄, h₄⟩
        · rintro _ s₂ ⟨hx₂, h₂⟩
          exact .pure ⟨hx₁.trans hx₂, h₂, by simp⟩
      | staticField f =>
        cases hr
        exact hother (by simp)
      | instanceField o f =>
        obtain ⟨l, -, rfl⟩ := Option.map_eq_some_iff.1 hr
        exact hother (by simp)
      | arrayElement o =>
        obtain ⟨l, -, rfl⟩ := Option.map_eq_some_iff.1 hr
        exact hother (by simp)

end

end Balanced

end ProgramFlow.PointsTo
