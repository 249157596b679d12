import ProgramFlow.Proofs.PointsTo.Capacity
import ProgramFlow.Proofs.PointsTo.Exactness
/-!
Accounting for the work list of the points-to analysis. Each new fact adds a fixed price to a
reserve and each entry of the work list is taken from it; there are finitely many facts, so the
reserve is bounded.
-/
namespace ProgramFlow.PointsTo

/-- What the state says is derivable, whatever is still due. -/
def Sane (p : Program) (σ : Sensitivity) (D : Judgement → Prop) (s : State) : Prop :=
  ∃ due, Balanced p σ D s due

/-- The number of entries of the work list that each fact pays for. -/
def price (p : Program) (σ : Sensitivity) : Nat := capacity p σ + p.stmts.size

/-- What the facts pay for, less what is on the work list. -/
noncomputable def State.reserve (s : State) (p : Program) (σ : Sensitivity) : Int :=
  price p σ * s.count - s.pending.toList.length

/-- The facts have paid for everything on the work list. -/
structure Solvent (p : Program) (σ : Sensitivity) (D : Judgement → Prop) (s : State) : Prop where
  sane : Sane p σ D s
  funds : 0 ≤ s.reserve p σ

/-- A step that puts at most `n` entries on the work list which its new facts do not pay for. -/
structure Costs (p : Program) (σ : Sensitivity) (D : Judgement → Prop) (n : Nat)
    (s s' : State) : Prop where
  grows : s.Extends s'
  sane : Sane p σ D s'
  reserve : s.reserve p σ ≤ s'.reserve p σ + n

/-- The clones are reachable, and the state records a new fact for each of them. -/
structure Reaches (p : Program) (σ : Sensitivity) (D : Judgement → Prop) (n : Nat)
    (ms : List MethodCloneId) (s s' : State) : Prop extends Costs p σ D n s s' where
  count : s.count + ms.length ≤ s'.count
  reachable : ∀ c ∈ ms, ∃ t m, s'.read (.reachable c) = some (.reachable t m) ∧
    D (.reachable t m)

variable {p : Program} {σ : Sensitivity} {D : Judgement → Prop} {s s' s'' : State} {t t' : Trail}
  {m : MethodId} {a b : Slot} {l : Location} {J : Judgement} {n n' : Nat}
  {ms ms' : List MethodCloneId} {E : AnalysisError → State → Prop}

theorem Balanced.sane {due : Set Judgement} (h : Balanced p σ D s due) : Sane p σ D s := ⟨due, h⟩

namespace Sane

theorem owe (h : Sane p σ D s) (hJ : D J) : ∃ due, Balanced p σ D s (due ∪ {J}) := by
  obtain ⟨due, h⟩ := h
  exact ⟨due, h.owe hJ⟩

theorem costs (h : Sane p σ D s) : Costs p σ D 0 s s := ⟨.refl s, h, by simp⟩

theorem facts_bounded (hD : Tame p σ D) (h : Sane p σ D s) :
    s.facts.Finite ∧ s.count ≤ capacity p σ := by
  obtain ⟨due, h⟩ := h
  exact h.facts_bounded hD

end Sane

namespace Costs

theorem trans (h : Costs p σ D n s s') (h' : Costs p σ D n' s' s'') :
    Costs p σ D (n + n') s s'' := by
  refine ⟨h.grows.trans h'.grows, h'.sane, ?_⟩
  have h₁ := h.reserve
  have h₂ := h'.reserve
  push_cast
  omega

theorem mono (h : Costs p σ D n s s') (hn : n ≤ n') : Costs p σ D n' s s' := by
  refine ⟨h.grows, h.sane, ?_⟩
  have h₁ := h.reserve
  omega

theorem solvent (h : Costs p σ D n s s') (hn : (n : Int) ≤ s.reserve p σ) : Solvent p σ D s' := by
  have hr := h.reserve
  exact ⟨h.sane, by omega⟩

theorem reaches_nil (hD : Tame p σ D) (h : Costs p σ D n s s') :
    Reaches p σ D n [] s s' :=
  ⟨h, h.grows.count_le (h.sane.facts_bounded hD).1, by simp⟩

end Costs

theorem Reaches.trans (h : Reaches p σ D n ms s s') (h' : Reaches p σ D n' ms' s' s'') :
    Reaches p σ D (n + n') (ms ++ ms') s s'' := by
  refine ⟨h.toCosts.trans h'.toCosts, ?_, ?_⟩
  · have h₁ := h.count
    have h₂ := h'.count
    rw [List.length_append]
    omega
  · intro c hc
    rcases List.mem_append.1 hc with hc | hc
    · obtain ⟨t, m, hread, hm⟩ := h.reachable c hc
      exact ⟨t, m, h'.grows.read hread, hm⟩
    · exact h'.reachable c hc

namespace Sane

/-- A step that records nothing and sends nothing costs nothing. -/
theorem quiet (h : Sane p σ D s) (he : s.elements.Extends s'.elements) (hh : s'.heap = s.heap)
    (hp : s'.pending = s.pending) (hr : ∀ f, s'.Records f ↔ s.Records f) : Costs p σ D 0 s s' := by
  obtain ⟨due, h⟩ := h
  obtain ⟨hx, hb⟩ := h.quiet s' he hh hp hr
  refine ⟨hx, hb.sane, ?_⟩
  rw [State.reserve, State.reserve, State.count_congr hr, hp]
  simp

theorem renumber (h : Sane p σ D s) {e : Elements} (he : s.elements.Extends e)
    (ho : ∀ x, e.objectsOf x = s.elements.objectsOf x) :
    Costs p σ D 0 s { s with elements := e } :=
  h.quiet he rfl rfl fun f => by cases f <;> simp [State.Records, ho]

/-- A new number costs nothing, and it is what the invariant ensures of it. -/
theorem ofElements {α : Type} {f : Elements → α × Elements} {Q : α → State → Prop}
    {due : Set Judgement} (h : Sane p σ D s) (he : s.elements.Extends (f s.elements).2)
    (ho : ∀ x, (f s.elements).2.objectsOf x = s.elements.objectsOf x)
    (hQ : (SolverM.ofElements f).Ensures s fun a s' =>
      s.Extends s' ∧ Balanced p σ D s' due ∧ Q a s') :
    (SolverM.ofElements f).Attains s E fun a s' => Costs p σ D 0 s s' ∧ Q a s' :=
  .mono (.and_ensures (.modifyGet (h.renumber he ho)) hQ) fun _ _ h => ⟨h.1, h.2.2.2⟩

theorem contextId (h : Sane p σ D s) {c : Context} (hc : c.elements.map s.mark = t.map some) :
    (SolverM.contextId c).Attains s E fun id s' => Costs p σ D 0 s s' ∧ s'.trail id = some t := by
  obtain ⟨due, hb⟩ := id h
  exact h.ofElements (.context _ c) (fun _ => rfl) (hb.contextId hc)

theorem objectId (h : Sane p σ D s) {o : ObjClone} {x : Obj} (ht : s.trail o.context = some t)
    (ho : s.heap.get? o.obj = some x) : (SolverM.objectId o).Attains s E fun id s' =>
      Costs p σ D 0 s s' ∧ s'.location id = some ⟨t, x.site⟩ := by
  obtain ⟨due, hb⟩ := id h
  exact h.ofElements (.object _ o) (fun _ => rfl) (hb.objectId ht ho)

theorem methodId (h : Sane p σ D s) (c : MethodClone) :
    (SolverM.methodId c).Attains s E fun id s' =>
      Costs p σ D 0 s s' ∧ s'.elements.methods.get? id = some c := by
  obtain ⟨due, hb⟩ := id h
  exact h.ofElements (.method _ c) (fun _ => rfl) hb.methodId

theorem callSiteId (h : Sane p σ D s) (c : CallClone) :
    (SolverM.callSiteId c).Attains s E fun id s' =>
      Costs p σ D 0 s s' ∧ s'.elements.callSites.get? id = some c := by
  obtain ⟨due, hb⟩ := id h
  exact h.ofElements (.callSite _ c) (fun _ => rfl) hb.callSiteId

theorem pointerId (h : Sane p σ D s) {r : Pointer} (ha : s.slotOf r = some a) :
    (SolverM.pointerId r).Attains s E fun id s' => Costs p σ D 0 s s' ∧ s'.slot id = some a := by
  obtain ⟨due, hb⟩ := id h
  exact h.ofElements (.pointer _ r) (s.elements.objectsOf_pointer r) (hb.pointerId ha)

theorem countUnresolved (h : Sane p σ D s) :
    SolverM.countUnresolved.Attains s E fun _ s' => Costs p σ D 0 s s' :=
  .modify (h.quiet (.refl _) rfl rfl fun f => by cases f <;> rfl)

theorem allocate (h : Sane p σ D s) {o : Obj} (ho : p.Allocates o) :
    (SolverM.allocate o).Attains s E fun id s' =>
      Costs p σ D 0 s s' ∧ ∃ x, s'.heap.get? id = some x ∧ x.site = o.site := by
  obtain ⟨due, h⟩ := h
  have hreserve : ∀ heap, State.reserve { s with heap } p σ = s.reserve p σ := by
    intro heap
    have hcount : State.count { s with heap } = s.count :=
      State.count_congr fun f => by cases f <;> rfl
    rw [State.reserve, State.reserve, hcount]
  obtain ⟨hx, hb, hobj⟩ := h.allocate ho _ _ rfl
  exact .modifyGet ⟨⟨hx, hb.sane, by simp [hreserve]⟩, hobj⟩

theorem send (h : Sane p σ D s) (hd : D (.pointsTo a l)) {x : PointerId}
    {o : ObjCloneId} (ha : s.slot x = some a) (hl : s.location o = some l) :
    (SolverM.send x (.singleton o)).Attains s E fun _ s' => Costs p σ D 1 s s' := by
  obtain ⟨due, h⟩ := h.owe hd
  obtain ⟨hx, hb⟩ := h.send ha hl _ _ rfl
  refine .modify ⟨hx, hb.sane, ?_⟩
  rw [State.reserve, State.reserve, State.count_congr fun f => State.records_send]
  simp only [State.send, Queue.toList_push, List.length_append, List.length_singleton]
  push_cast
  omega

section

variable (hD : Tame p σ D)
include hD

/-- A new flow pays for the objects that it sends. -/
theorem addFlow (h : Sane p σ D s) (hd : D (.flow a b)) {x y : PointerId}
    (ha : s.slot x = some a) (hb : s.slot y = some b) : Costs p σ D 0 s (s.addFlow x y) := by
  cases hedge : s.flow.hasEdge x y with
  | true =>
    rw [State.addFlow_of_hasEdge hedge]
    exact h.costs
  | false =>
    have hfinite := (h.facts_bounded hD).1
    obtain ⟨due, h⟩ := h.owe hd
    obtain ⟨hx, hbal⟩ := h.addFlow hD.toSaturated ha hb
    refine ⟨hx, hbal.sane, ?_⟩
    have hnew : .flow x y ∉ s.facts := by
      intro hf
      have := s.flow.hasEdge_iff.2 hf
      simp [hedge] at this
    have hcount := State.count_succ hfinite hnew fun f => State.records_addFlow hedge
    have hpending : (s.addFlow x y).pending.toList.length ≤ s.pending.toList.length + 1 := by
      simp only [State.addFlow, hedge, Bool.false_eq_true, if_false]
      split
      · exact Nat.le_succ _
      · simp [State.send]
    have hprice : 1 ≤ price p σ := Nat.le_add_right_of_le (one_le_capacity p σ)
    rw [State.reserve, State.reserve, hcount]
    push_cast
    rw [mul_add]
    omega

theorem flow (h : Sane p σ D s) (hd : D (.flow a b)) {r r' : Pointer}
    (ha : s.slotOf r = some a) (hb : s.slotOf r' = some b) :
    (SolverM.flow r r').Attains s E fun _ s' => Costs p σ D 0 s s' := by
  refine .bind (h.pointerId ha) ?_
  rintro x s₁ ⟨h₁, hxa⟩
  refine .bind (h₁.sane.pointerId (h₁.grows.slotOf hb)) ?_
  rintro y s₂ ⟨h₂, hyb⟩
  exact .modify (h₁.trans (h₂.trans (h₂.sane.addFlow hD hd (h₂.grows.slot hxa) hyb)))

/-- A new fact of the call graph adds its price to the reserve. -/
theorem record (h : Sane p σ D s) (hd : D J) {f : Fact} {calls : CallGraph}
    (hJ : s.read f = some J) (hnew : f ∉ s.facts)
    (hr : ∀ f', State.Records { s with calls } f' ↔ s.Records f' ∨ f' = f) :
    s.Extends { s with calls } ∧ Sane p σ D { s with calls } ∧
      State.count { s with calls } = s.count + 1 ∧
      State.reserve { s with calls } p σ = s.reserve p σ + price p σ := by
  have hfinite := (h.facts_bounded hD).1
  obtain ⟨due, h⟩ := h.owe hd
  obtain ⟨hx, hb⟩ := h.record hD.toSaturated hJ hr
  have hcount := State.count_succ hfinite hnew hr
  refine ⟨hx, hb.sane, hcount, ?_⟩
  rw [State.reserve, State.reserve, hcount]
  push_cast
  ring

end

/-- The iterations of a loop add up. -/
theorem forIn {α : Type} {l : List α} {f : α → PUnit → SolverM (ForInStep PUnit)}
    (h : Sane p σ D s) (hf : ∀ a ∈ l, ∀ i < l.length, ∀ s₁, Costs p σ D (n * i) s s₁ →
      (f a ⟨⟩).Attains s₁ E fun r s₂ => r = .yield ⟨⟩ ∧ Costs p σ D n s₁ s₂) :
    SolverM.Attains (forIn l PUnit.unit f) s E fun _ s' => Costs p σ D (n * l.length) s s' := by
  induction l generalizing s with
  | nil => exact .pure h.costs
  | cons a l ih =>
    have hsum : ∀ i, n + n * i = n * (i + 1) := fun i => by rw [Nat.mul_succ, Nat.add_comm]
    rw [List.forIn_cons]
    refine .bind (hf a (.head _) 0 (Nat.succ_pos _) s h.costs) ?_
    rintro _ s₁ ⟨rfl, h₁⟩
    refine (ih h₁.sane fun a ha i hi s₂ h₂ =>
      hf a (.tail _ ha) (i + 1) (Nat.succ_lt_succ hi) s₂ (hsum i ▸ h₁.trans h₂)).mono ?_
    intro _ s₂ h₂
    exact hsum l.length ▸ h₁.trans h₂

theorem forIn_free {α : Type} {l : List α} {f : α → PUnit → SolverM (ForInStep PUnit)}
    (h : Sane p σ D s) (hf : ∀ a ∈ l, ∀ s₁, Costs p σ D 0 s s₁ →
      (f a ⟨⟩).Attains s₁ E fun r s₂ => r = .yield ⟨⟩ ∧ Costs p σ D 0 s₁ s₂) :
    SolverM.Attains (ForIn.forIn l PUnit.unit f) s E fun _ s' => Costs p σ D 0 s s' := by
  simpa using h.forIn (n := 0) fun a ha _ _ s₁ h₁ => hf a ha s₁ (by simpa using h₁)

theorem filterMapM (hD : Tame p σ D) {α : Type} {l : List α}
    {f : α → SolverM (Option MethodCloneId)} (h : Sane p σ D s)
    (hf : ∀ a ∈ l, ∀ i < l.length, ∀ s₁, Costs p σ D (n * i) s s₁ →
      (f a).Attains s₁ E fun o s₂ => Reaches p σ D n o.toList s₁ s₂) :
    (l.filterMapM f).Attains s E fun ms s' => Reaches p σ D (n * l.length) ms s s' := by
  induction l generalizing s with
  | nil => exact .pure (h.costs.reaches_nil hD)
  | cons a l ih =>
    have hsum : ∀ i, n + n * i = n * (i + 1) := fun i => by rw [Nat.mul_succ, Nat.add_comm]
    rw [List.filterMapM_cons]
    refine .bind (hf a (.head _) 0 (Nat.succ_pos _) s h.costs) ?_
    intro o s₁ h₁
    have hrest := ih h₁.sane fun a ha i hi s₂ h₂ =>
      hf a (.tail _ ha) (i + 1) (Nat.succ_lt_succ hi) s₂ (hsum i ▸ h₁.toCosts.trans h₂)
    cases o with
    | none => exact hrest.mono fun ms s₂ h₂ => hsum l.length ▸ h₁.trans h₂
    | some b => exact .bind hrest fun ms s₂ h₂ => .pure (hsum l.length ▸ h₁.trans h₂)

end Sane

end ProgramFlow.PointsTo
