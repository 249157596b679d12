import ProgramFlow.Proofs.PointsTo.Queries
/-!
Properties of states that no computation of the points-to analysis breaks. They may speak of the
entries and the reachable clones of the call graph and of what the numbers stand for.
-/
namespace ProgramFlow.PointsTo

/-- The property survives new numbers and whatever else leaves the clones of the call graph
alone. -/
def Stable (I : State → Prop) : Prop :=
  ∀ ⦃s s' : State⦄, I s → s'.calls.entries = s.calls.entries →
    s'.calls.reachable = s.calls.reachable → s.elements.Extends s'.elements → I s'

variable {p : Program} {σ : Sensitivity} {I : State → Prop}

namespace SolverM

variable {α β : Type}

/-- If the computation succeeds, the state it leaves has the property if the one before had. -/
def Keeps (I : State → Prop) (x : SolverM α) : Prop :=
  ∀ s, I s → x.Ensures s fun _ s' => I s'

namespace Keeps

theorem pure (a : α) : Keeps I (pure a) := fun _ h => .pure h

theorem bind {x : SolverM α} {f : α → SolverM β} (hx : Keeps I x) (hf : ∀ a, Keeps I (f a)) :
    Keeps I (x >>= f) :=
  fun s h => .bind (hx s h) fun a s' h' => hf a s' h'

theorem lift (o : Outcome α) : Keeps I (liftM o : SolverM α) := by
  intro s h a s' hr
  cases o with
  | ok a =>
    cases hr
    exact h
  | error e => cases hr

theorem throw (e : AnalysisError) : Keeps I (throw e : SolverM α) := by
  intro s h a s' hr
  cases hr

theorem get : Keeps I (get : SolverM State) := by
  intro s h a s' hr
  cases hr
  exact h

theorem modifyGet {f : State → α × State} (hf : ∀ s, I s → I (f s).2) :
    Keeps I (modifyGet f) :=
  fun s h => .modifyGet (hf s h)

theorem modify {f : State → State} (hf : ∀ s, I s → I (f s)) :
    Keeps I (modify f) :=
  fun s h => .modify (hf s h)

theorem forIn {l : List α} {f : α → β → SolverM (ForInStep β)} (hf : ∀ a b, Keeps I (f a b))
    (b : β) : Keeps I (forIn l b f) := by
  induction l generalizing b with
  | nil => exact .pure b
  | cons a l ih =>
    rw [List.forIn_cons]
    apply (hf a b).bind
    intro r
    cases r with
    | done b => exact .pure b
    | yield b => exact ih b

theorem filterMapM {l : List α} {f : α → SolverM (Option β)} (hf : ∀ a, Keeps I (f a)) :
    Keeps I (l.filterMapM f) :=
  fun _ h => .filterMapM (r := []) (I := fun _ _ s => I s) (fun a _ _ s h => hf a s h) h

end Keeps

theorem keeps_context (c : ContextId) : Keeps I (context c) := .bind .get fun _ => .lift _

theorem keeps_repeatWhile {rounds : Nat} {body : SolverM Bool} (h : Keeps I body) :
    Keeps I (repeatWhile rounds body) := by
  intro s hs
  refine .repeatWhile (I := I) (fun s hs => (h s hs).mono ?_) hs
  intro more s' hs'
  split
  · exact hs'
  · exact hs'

section

variable (hI : Stable I)
include hI

theorem keeps_ofElements {f : Elements → α × Elements} (hf : ∀ e : Elements, e.Extends (f e).2) :
    Keeps I (ofElements f) :=
  .modifyGet fun s h => hI h rfl rfl (hf s.elements)

theorem keeps_contextId (c : Context) : Keeps I (contextId c) :=
  keeps_ofElements hI fun e => .context e c

theorem keeps_objectId (o : ObjClone) : Keeps I (objectId o) :=
  keeps_ofElements hI fun e => .object e o

theorem keeps_methodId (c : MethodClone) : Keeps I (methodId c) :=
  keeps_ofElements hI fun e => .method e c

theorem keeps_callSiteId (c : CallClone) : Keeps I (callSiteId c) :=
  keeps_ofElements hI fun e => .callSite e c

theorem keeps_pointerId (x : Pointer) : Keeps I (pointerId x) :=
  keeps_ofElements hI fun e => .pointer e x

theorem keeps_addFlow (x y : PointerId) : Keeps I (modify (·.addFlow x y)) := by
  apply Keeps.modify
  intro s h
  have hcalls := State.calls_addFlow s x y
  refine hI h (by rw [hcalls]) (by rw [hcalls]) ?_
  rw [State.elements_addFlow]
  exact .refl _

theorem keeps_flow (x y : Pointer) : Keeps I (flow x y) :=
  .bind (keeps_pointerId hI x) fun _ => .bind (keeps_pointerId hI y) fun _ => keeps_addFlow hI _ _

theorem keeps_send (x : PointerId) (objs : ObjSet) : Keeps I (send x objs) :=
  .modify fun _ h => hI h rfl rfl (.refl _)

theorem keeps_countUnresolved : Keeps I countUnresolved := .modify fun _ h => hI h rfl rfl (.refl _)

end

end SolverM

open SolverM

section

variable (hI : Stable I)
include hI

theorem keeps_link (c c' : ContextId) (call : Call) (d : MethodDecl) :
    Keeps I (link c call c' d) := by
  unfold link
  apply Keeps.bind
  · exact .forIn (fun _ _ => .bind (keeps_flow hI _ _) fun _ => .pure _) _
  · intro _
    split
    · apply Keeps.bind (keeps_pointerId hI _)
      intro target
      apply Keeps.bind
      · exact .forIn (fun _ _ => .bind (keeps_pointerId hI _) fun _ =>
          .bind (keeps_addFlow hI _ _) fun _ => .pure _) _
      · exact fun _ => .pure _
    · exact .pure _

theorem keeps_addCall (c : ContextId) (caller : MethodCloneId) (site : StmtId) (call : Call)
    (c' : ContextId) (callee : MethodId) : Keeps I (addCall p c caller site call c' callee) := by
  unfold addCall
  apply Keeps.bind (keeps_callSiteId hI _)
  intro siteId
  apply Keeps.bind (keeps_methodId hI _)
  intro calleeId
  apply Keeps.bind .get
  intro s
  split
  · exact .pure _
  · apply Keeps.bind
    · exact .modify fun _ h => hI h rfl rfl (.refl _)
    · intro _
      apply Keeps.bind (.lift _)
      intro d
      exact .bind (keeps_link hI _ _ _ _) fun _ => .pure _

theorem keeps_enterStmt (self : MethodCloneId) (clone : MethodClone) (owner : ClassId)
    (site : StmtId) : Keeps I (enterStmt p σ self clone owner site) := by
  unfold enterStmt
  apply Keeps.bind (.lift _)
  intro i
  split
  · apply Keeps.bind
    · exact .modifyGet fun _ h => hI h rfl rfl (.refl _)
    · intro obj
      apply Keeps.bind (keeps_context _)
      intro c
      apply Keeps.bind (keeps_contextId hI _)
      intro heapContext
      apply Keeps.bind (keeps_objectId hI _)
      intro object
      apply Keeps.bind (keeps_pointerId hI _)
      intro target
      exact .bind (keeps_send hI _ _) fun _ => .pure _
  · exact .bind (keeps_flow hI _ _) fun _ => .pure _
  · exact .bind (keeps_flow hI _ _) fun _ => .pure _
  · exact .bind (keeps_flow hI _ _) fun _ => .pure _
  · exact .bind (keeps_flow hI _ _) fun _ => .pure _
  · split
    · exact .pure _
    · apply Keeps.bind (.lift _)
      intro callee
      cases callee with
      | none => exact .bind (keeps_countUnresolved hI) fun _ => .pure _
      | some callee =>
        apply Keeps.bind (keeps_context _)
        intro c
        exact .bind (keeps_contextId hI _) fun _ => keeps_addCall hI _ _ _ _ _ _
  · apply Keeps.bind (.lift _)
    intro x
    split
    · exact .bind (.throw _) fun _ => .pure _
    · exact .pure _
  · exact .pure _

theorem keeps_openAccesses (c : ContextId) (v : VarId) (o : ObjCloneId) :
    Keeps I (openAccesses p c v o) := by
  unfold openAccesses
  apply Keeps.bind (.lift _)
  intro _
  apply Keeps.bind
  · exact .forIn (fun _ _ => .bind (keeps_flow hI _ _) fun _ => .pure _) _
  · intro _
    apply Keeps.bind
    · exact .forIn (fun _ _ => .bind (keeps_flow hI _ _) fun _ => .pure _) _
    · intro _
      apply Keeps.bind
      · exact .forIn (fun _ _ => .bind (keeps_flow hI _ _) fun _ => .pure _) _
      · intro _
        apply Keeps.bind
        · exact .forIn (fun _ _ => .bind (keeps_flow hI _ _) fun _ => .pure _) _
        · exact fun _ => .pure _

theorem keeps_passReceiver (c : ContextId) (d : MethodDecl) (o : ObjCloneId) :
    Keeps I (passReceiver c d o) := by
  unfold passReceiver
  split
  · exact .bind (keeps_pointerId hI _) fun _ => keeps_send hI _ _
  · exact .pure _

end

section

variable (hI : Stable I) (hm : ∀ c, Keeps I (enterMethod p σ c))

include hm in
theorem keeps_reach (self : MethodCloneId) : Keeps I (reach p σ self) := by
  intro s hs _ s' hr
  simp only [reach, ExceptT.run_mk] at hr
  split at hr
  · next r hfin =>
    subst hr
    refine Progress.of_iterate hfin (P := fun r => I r.2) (Q := fun r => r.1 = .ok () → I r.2)
      (fun r hr => ?_) hs rfl
    obtain ⟨stack, s⟩ := r
    cases stack with
    | nil => exact fun _ => hr
    | cons c stack =>
      simp only [reachStep]
      split
      · next hrun => exact hm c s hr _ _ hrun
      · intro herror
        cases herror
  · cases hr

include hI hm

theorem keeps_openCall (c : ContextId) (o : ObjCloneId) (site : StmtId) (call : Call) :
    Keeps I (openCall p σ c o site call) := by
  unfold openCall
  apply Keeps.bind (.bind .get fun _ => .lift _)
  intro clone
  apply Keeps.bind (.bind .get fun _ => .lift _)
  intro obj
  apply Keeps.bind (.lift _)
  intro callee
  cases callee with
  | none => exact keeps_countUnresolved hI
  | some callee =>
    apply Keeps.bind (keeps_context _)
    intro _
    apply Keeps.bind (keeps_context _)
    intro _
    apply Keeps.bind (keeps_contextId hI _)
    intro c'
    apply Keeps.bind (.lift _)
    intro d
    apply Keeps.bind (keeps_passReceiver hI _ _ _)
    intro _
    apply Keeps.bind (.lift _)
    intro stmt
    apply Keeps.bind (keeps_methodId hI _)
    intro caller
    apply Keeps.bind (keeps_addCall hI _ _ _ _ _ _)
    intro reached
    cases reached with
    | none => exact .pure _
    | some callee => exact keeps_reach hm _

theorem keeps_step : Keeps I (step p σ) := by
  unfold step
  apply Keeps.bind .get
  intro s
  split
  · exact .pure _
  · next x objs pending hpop =>
    apply Keeps.bind
    · exact .modify fun _ h => hI h rfl rfl (.refl _)
    · intro _
      apply Keeps.bind
      · apply Keeps.modifyGet
        intro s h
        obtain ⟨new, s', hs'⟩ : ∃ new s', s.absorb x objs = (new, s') := ⟨_, _, rfl⟩
        rw [hs']
        have hx := (State.extends_absorb hs').1
        rcases (State.absorb_cases hs').2 with ⟨-, rfl⟩ | ⟨-, rfl⟩
        · exact h
        · exact hI h rfl rfl hx
      · intro new
        split
        · exact .pure _
        · apply Keeps.bind .get
          intro s
          apply Keeps.bind (.lift _)
          intro pointer
          split
          · apply Keeps.bind
            · apply Keeps.forIn
              intro o _
              apply Keeps.bind (keeps_openAccesses hI _ _ _)
              intro _
              apply Keeps.bind
              · exact .forIn (fun _ _ => .bind (keeps_openCall hI hm _ _ _ _) fun _ => .pure _) _
              · exact fun _ => .pure _
            · exact fun _ => .pure _
          · exact .pure _

/-- What holds as soon as the main method is an entry holds after the start. -/
theorem start_keeps {K : State → Prop} (hK : Stable K) {s : State} (h : K s)
    (hstarted : s.started = true → I s)
    (hentry : ∀ (s : State) c clone, K s → s.elements.methods.get? c = some clone →
      p.main = some clone.method → I { s with calls := s.calls.addEntry c }) :
    (start p σ).Ensures s fun _ s' => I s' := by
  unfold start
  refine .get_bind ?_
  split
  · next hs => exact .pure (hstarted hs)
  refine .lift_bind fun m hmain => ?_
  have hmain := Program.mainMethod_eq_ok.1 hmain
  refine .bind (keeps_contextId hK _ s h) fun c s₁ h₁ => ?_
  refine .bind (P := fun c' s => K s ∧ s.elements.methods.get? c' = some ⟨c, m⟩) ?_
    fun c' s₂ h₂ => ?_
  · intro c' s₂ hrun
    refine ⟨keeps_methodId hK _ s₁ h₁ c' s₂ hrun, ?_⟩
    obtain ⟨y, hid, rfl⟩ := s₁.elements.methods.get?_ensure_self ⟨c, m⟩
    cases hrun
    exact hid
  refine .modify_bind (.bind (keeps_reach hm c' _ (hentry s₂ c' _ h₂.1 h₂.2 hmain)) ?_)
  exact fun _ s₃ h₃ => .modify (hI h₃ rfl rfl (.refl _))

theorem solve_keeps {K : State → Prop} (hK : Stable K) (h : K .initial)
    (hentry : ∀ (s : State) c clone, K s → s.elements.methods.get? c = some clone →
      p.main = some clone.method → I { s with calls := s.calls.addEntry c }) :
    (solve p σ).Ensures .initial fun _ s => I s :=
  .bind (start_keeps hI hm hK h nofun hentry) fun _ s h => keeps_repeatWhile (keeps_step hI hm) s h

end

end ProgramFlow.PointsTo
