import ProgramFlow.Proofs.PointsTo.Reading
import ProgramFlow.Proofs.PointsTo.Triple
/-!
The invariant of the points-to analysis. Whatever a state promises is derivable, and what follows
from its facts is promised or is still due: a judgement that the analysis owes and will pay before
it takes the next entry from its work list. What counts as derivable is any class of judgements
that the rules do not leave. The least such class says what the analysis finds; a larger one asks
less of the program.
-/
namespace ProgramFlow.PointsTo

/-- A fact with this meaning is recorded or on its way. -/
def State.Knows (s : State) (J : Judgement) : Prop := ∃ f, s.Promises f ∧ s.read f = some J

structure Balanced (p : Program) (σ : Sensitivity) (D : Judgement → Prop) (s : State)
    (due : Set Judgement) : Prop where
  inStep : s.elements.pointers.InStep
  derivable : ∀ {f}, s.Promises f → ∃ J, s.read f = some J ∧ D J
  derivable_due : ∀ {J}, J ∈ due → D J
  allocates : ∀ {o x}, s.heap.get? o = some x → p.Allocates x
  carries : ∀ {x y o}, s.Records (.flow x y) → s.Records (.pointsTo x o) →
    s.Promises (.pointsTo y o)
  main : ∀ {m}, p.main = some m → s.Knows (.reachable [] m) ∨ .reachable [] m ∈ due
  closed : ∀ {f J J'}, s.Records f → s.read f = some J → Consequence p σ J J' →
    s.Knows J' ∨ J' ∈ due

variable {p : Program} {σ : Sensitivity} {D : Judgement → Prop} {s s' : State}
  {due due' : Set Judgement} {t : Trail} {m : MethodId} {a b : Slot} {l : Location} {i : Invocation}

theorem State.Extends.knows (h : s.Extends s') {J : Judgement} (hJ : s.Knows J) : s'.Knows J := by
  obtain ⟨f, hf, hr⟩ := hJ
  exact ⟨f, h.promises hf, h.read hr⟩

namespace Balanced

/-- A recorded fact has the meaning that it had when it was recorded. -/
theorem read_of_extends (h : Balanced p σ D s due) (hx : s.Extends s') {f : Fact} {J : Judgement}
    (hf : s.Records f) (hJ : s'.read f = some J) : s.read f = some J := by
  obtain ⟨J', hJ', -⟩ := h.derivable (.inl hf)
  cases (hx.read hJ').symm.trans hJ
  exact hJ'

/-- A step whose new facts are derivable and whose new debts cover what follows from them. -/
theorem evolve (h : Balanced p σ D s due) (hx : s.Extends s')
    (hpromise : ∀ f, s'.Promises f → s.Promises f ∨ ∃ J, s'.read f = some J ∧ D J)
    (hdue : ∀ J ∈ due', D J) (hpaid : ∀ J ∈ due, s'.Knows J ∨ J ∈ due')
    (hheap : ∀ o x, s'.heap.get? o = some x → s.heap.get? o = some x ∨ p.Allocates x)
    (hcarry : ∀ x y o, s'.Records (.flow x y) → s'.Records (.pointsTo x o) →
      s.Records (.flow x y) ∧ s.Records (.pointsTo x o) ∨ s'.Promises (.pointsTo y o))
    (hclosed : ∀ f J J', s'.Records f → s'.read f = some J → Consequence p σ J J' →
      s.Records f ∨ s'.Knows J' ∨ J' ∈ due') : Balanced p σ D s' due' where
  inStep := hx.elements.inStep h.inStep
  derivable {f} hf := by
    rcases hpromise f hf with hf | hf
    · obtain ⟨J, hJ, hd⟩ := h.derivable hf
      exact ⟨J, hx.read hJ, hd⟩
    · exact hf
  derivable_due {J} hJ := hdue J hJ
  allocates {o x} ho := (hheap o x ho).elim h.allocates id
  carries {x y o} hxy hxo := by
    rcases hcarry x y o hxy hxo with ⟨hxy, hxo⟩ | hyo
    · exact hx.promises (h.carries hxy hxo)
    · exact hyo
  main hm := (h.main hm).elim (fun hk => .inl (hx.knows hk)) (hpaid _)
  closed {f J J'} hf hJ hJ' := by
    rcases hclosed f J J' hf hJ hJ' with hf | hk
    · rcases h.closed hf (h.read_of_extends hx hf hJ) hJ' with hk | hd
      · exact .inl (hx.knows hk)
      · exact hpaid J' hd
    · exact hk

/-- A debt is paid once its judgement is known. -/
theorem pay (h : Balanced p σ D s due) (hdue : due' ⊆ due)
    (hpaid : ∀ J ∈ due, s.Knows J ∨ J ∈ due') : Balanced p σ D s due' where
  inStep := h.inStep
  derivable := h.derivable
  derivable_due hJ := h.derivable_due (hdue hJ)
  allocates := h.allocates
  carries := h.carries
  main hm := (h.main hm).elim .inl (hpaid _)
  closed hf hJ hJ' := (h.closed hf hJ hJ').elim .inl (hpaid _)

/-- A derivable judgement may be owed. -/
theorem owe (h : Balanced p σ D s due) {J : Judgement} (hJ : D J) :
    Balanced p σ D s (due ∪ {J}) where
  inStep := h.inStep
  derivable := h.derivable
  derivable_due := by
    rintro J' (hJ' | rfl)
    · exact h.derivable_due hJ'
    · exact hJ
  allocates := h.allocates
  carries := h.carries
  main hm := (h.main hm).imp_right .inl
  closed hf hr hc := (h.closed hf hr hc).imp_right .inl

/-- A step that records nothing and sends nothing. -/
theorem quiet (h : Balanced p σ D s due) (s' : State) (he : s.elements.Extends s'.elements)
    (hh : s'.heap = s.heap) (hp : s'.pending = s.pending)
    (hr : ∀ f, s'.Records f ↔ s.Records f) : s.Extends s' ∧ Balanced p σ D s' due := by
  have hp : ∀ f, s'.Promises f ↔ s.Promises f := by
    intro f
    simp only [State.Promises, State.Awaits, hr, hp]
  have hx : s.Extends s' := ⟨he, fun ho => hh ▸ ho, (hr _).2, (hp _).2⟩
  exact ⟨hx, h.evolve hx (fun f hf => .inl ((hp f).1 hf)) (fun _ => h.derivable_due)
    (fun _ hJ => .inr hJ) (fun _ _ ho => .inl (hh ▸ ho))
    (fun _ _ _ hxy hxo => .inl ⟨(hr _).1 hxy, (hr _).1 hxo⟩)
    (fun f _ _ hf _ _ => .inl ((hr f).1 hf))⟩

/-- New numbers change no facts. -/
theorem renumber (h : Balanced p σ D s due) {e : Elements} (he : s.elements.Extends e)
    (ho : ∀ x, e.objectsOf x = s.elements.objectsOf x) :
    s.Extends { s with elements := e } ∧ Balanced p σ D { s with elements := e } due := by
  refine h.quiet _ he rfl rfl fun f => ?_
  cases f <;> simp [State.Records, ho]

theorem countUnresolved (h : Balanced p σ D s due) :
    SolverM.countUnresolved.Ensures s fun _ s' => s.Extends s' ∧ Balanced p σ D s' due :=
  .modify (h.quiet _ (.refl _) rfl rfl fun f => by cases f <;> rfl)

theorem contextId (h : Balanced p σ D s due) {c : Context} {t : Trail}
    (hc : c.elements.map s.mark = t.map some) : (SolverM.contextId c).Ensures s fun id s' =>
      s.Extends s' ∧ Balanced p σ D s' due ∧ s'.trail id = some t := by
  obtain ⟨hx, hb⟩ := h.renumber (.context s.elements c) fun _ => rfl
  obtain ⟨x, hid, rfl⟩ := s.elements.contexts.get?_ensure_self c
  exact .modifyGet ⟨hx, hb, State.trail_eq_some_iff.2 ⟨x, hid, hx.marks hc⟩⟩

theorem objectId (h : Balanced p σ D s due) {o : ObjClone} {t : Trail} {x : Obj}
    (ht : s.trail o.context = some t) (ho : s.heap.get? o.obj = some x) :
    (SolverM.objectId o).Ensures s fun id s' =>
      s.Extends s' ∧ Balanced p σ D s' due ∧ s'.location id = some ⟨t, x.site⟩ := by
  obtain ⟨hx, hb⟩ := h.renumber (.object s.elements o) fun _ => rfl
  obtain ⟨y, hid, rfl⟩ := s.elements.objects.get?_ensure_self o
  exact .modifyGet ⟨hx, hb, State.location_eq_some_iff.2 ⟨y, x, hid, ho, hx.trail ht, rfl⟩⟩

theorem methodId (h : Balanced p σ D s due) {m : MethodClone} :
    (SolverM.methodId m).Ensures s fun id s' =>
      s.Extends s' ∧ Balanced p σ D s' due ∧ s'.elements.methods.get? id = some m := by
  obtain ⟨hx, hb⟩ := h.renumber (.method s.elements m) fun _ => rfl
  obtain ⟨y, hid, rfl⟩ := s.elements.methods.get?_ensure_self m
  exact .modifyGet ⟨hx, hb, hid⟩

theorem callSiteId (h : Balanced p σ D s due) {c : CallClone} :
    (SolverM.callSiteId c).Ensures s fun id s' =>
      s.Extends s' ∧ Balanced p σ D s' due ∧ s'.elements.callSites.get? id = some c := by
  obtain ⟨hx, hb⟩ := h.renumber (.callSite s.elements c) fun _ => rfl
  obtain ⟨y, hid, rfl⟩ := s.elements.callSites.get?_ensure_self c
  exact .modifyGet ⟨hx, hb, hid⟩

theorem pointerId (h : Balanced p σ D s due) {r : Pointer} {a : Slot} (ha : s.slotOf r = some a) :
    (SolverM.pointerId r).Ensures s fun id s' =>
      s.Extends s' ∧ Balanced p σ D s' due ∧ s'.slot id = some a := by
  obtain ⟨hx, hb⟩ := h.renumber (.pointer s.elements r) (s.elements.objectsOf_pointer r)
  obtain ⟨_, hid, rfl⟩ := s.elements.pointers.names.get?_ensure_self r
  exact .modifyGet ⟨hx, hb, State.slot_eq_some_iff.2 ⟨_, hid, hx.slotOf ha⟩⟩

theorem allocate (h : Balanced p σ D s due) {o : Obj} (ho : p.Allocates o) :
    (SolverM.allocate o).Ensures s fun id s' =>
      s.Extends s' ∧ Balanced p σ D s' due ∧ ∃ x, s'.heap.get? id = some x ∧ x.site = o.site := by
  have hx : s.Extends { s with heap := (s.heap.ensure o).2 } :=
    ⟨.refl _, Numbering.get?_ensure, id, id⟩
  refine .modifyGet ⟨hx, h.evolve hx (fun f => .inl) (fun _ => h.derivable_due) (fun _ => .inr) ?_
    (fun _ _ _ hxy hxo => .inl ⟨hxy, hxo⟩) (fun _ _ _ hf _ _ => .inl hf), s.heap.get?_ensure_self o⟩
  intro n x hn
  rcases Numbering.of_get?_ensure hn with hn | ⟨-, rfl⟩
  · exact .inl hn
  · exact .inr ho

end Balanced

/-! ## New facts -/

namespace State

variable {x y : PointerId} {objs : ObjSet}

theorem records_send {f : Fact} : (s.send x objs).Records f ↔ s.Records f := by
  cases f <;> rfl

theorem awaits_send {z : PointerId} {o : ObjCloneId} :
    (s.send x objs).Awaits z o ↔ s.Awaits z o ∨ z = x ∧ o ∈ objs := by
  simp only [Awaits, send, Queue.toList_push, List.mem_append, List.mem_singleton, Prod.mk.injEq]
  grind

theorem promises_send {f : Fact} :
    (s.send x objs).Promises f ↔ s.Promises f ∨ ∃ o ∈ objs, f = .pointsTo x o := by
  simp only [Promises, records_send, awaits_send]
  grind

theorem extends_send : s.Extends (s.send x objs) :=
  ⟨.refl _, id, records_send.2, fun h => promises_send.2 (.inl h)⟩

theorem addFlow_of_hasEdge (h : s.flow.hasEdge x y = true) : s.addFlow x y = s := by
  simp [addFlow, h]

theorem elements_addFlow : (s.addFlow x y).elements = s.elements := by
  unfold addFlow
  split
  · rfl
  · dsimp only
    split <;> rfl

theorem heap_addFlow : (s.addFlow x y).heap = s.heap := by
  unfold addFlow
  split
  · rfl
  · dsimp only
    split <;> rfl

theorem calls_addFlow (s : State) (x y : PointerId) : (s.addFlow x y).calls = s.calls := by
  unfold addFlow
  split
  · rfl
  · dsimp only
    split <;> rfl

theorem records_addEdge {f : Fact} :
    Records { s with flow := s.flow.addEdge x y } f ↔ s.Records f ∨ f = .flow x y := by
  cases f <;> simp [Records, or_comm]

theorem records_addCall {e : CallEdge} {f : Fact} :
    Records { s with calls := s.calls.addEdge e } f ↔ s.Records f ∨ f = .call e := by
  cases f <;> simp [Records, CallGraph.addEdge, OrderedSet.mem_add, or_comm]

theorem records_addReachable {c : MethodCloneId} {f : Fact} :
    Records { s with calls := s.calls.addReachable c } f ↔ s.Records f ∨ f = .reachable c := by
  cases f <;> simp [Records, CallGraph.addReachable, OrderedSet.mem_add, or_comm]

section

variable (h : s.flow.hasEdge x y = false)
include h

theorem records_addFlow {f : Fact} :
    (s.addFlow x y).Records f ↔ s.Records f ∨ f = .flow x y := by
  simp only [addFlow, h, Bool.false_eq_true, if_false]
  split
  · exact records_addEdge
  · exact records_send.trans records_addEdge

theorem promises_addFlow {f : Fact} : (s.addFlow x y).Promises f ↔
    s.Promises f ∨ f = .flow x y ∨ ∃ o ∈ s.elements.objectsOf x, f = .pointsTo y o := by
  have hp : Promises { s with flow := s.flow.addEdge x y } f ↔ s.Promises f ∨ f = .flow x y :=
    (or_congr_left records_addEdge).trans or_right_comm
  simp only [addFlow, h, Bool.false_eq_true, if_false]
  split
  · next hempty =>
    have hnone := SortedSet.isEmpty_iff.1 hempty
    simp [hp, hnone]
  · rw [promises_send, hp, or_assoc]

theorem extends_addFlow : s.Extends (s.addFlow x y) where
  elements := by
    rw [elements_addFlow]
    exact .refl _
  heap ho := by
    rw [heap_addFlow]
    exact ho
  records hf := (records_addFlow h).2 (.inl hf)
  promises hf := (promises_addFlow h).2 (.inl hf)

end

section

variable {new : ObjSet} (h : s.absorb x objs = (new, s'))
include h

theorem absorb_cases : new = objs.difference (s.elements.objectsOf x) ∧
    ((∀ o, o ∉ new) ∧ s' = s ∨ (∃ o, o ∈ new) ∧ s' = { s with
      elements := s.elements.setObjects x ((s.elements.objectsOf x).union new)
      pending := s.pending.pushAll ((s.flow.succs x).map (·, new)) }) := by
  simp only [absorb] at h
  split at h
  · next hempty =>
    cases h
    exact ⟨rfl, .inl ⟨SortedSet.isEmpty_iff.1 hempty, rfl⟩⟩
  · next hne =>
    cases h
    exact ⟨rfl, .inr ⟨SortedSet.exists_mem hne, rfl⟩⟩

theorem mem_absorbed_iff {o : ObjCloneId} :
    o ∈ new ↔ o ∈ objs ∧ o ∉ s.elements.objectsOf x := by
  rw [(absorb_cases h).1, SortedSet.mem_difference]

theorem awaits_absorb {y : PointerId} {o : ObjCloneId} :
    s'.Awaits y o ↔ s.Awaits y o ∨ y ∈ s.flow.succs x ∧ o ∈ new := by
  rcases (absorb_cases h).2 with ⟨hnone, rfl⟩ | ⟨-, rfl⟩
  · simp [hnone]
  · simp only [Awaits, Queue.toList_pushAll, List.mem_append, List.mem_map, Prod.mk.injEq]
    grind

theorem records_absorb (hx : (∃ o, o ∈ objs) → x.index < s.elements.pointers.sets.size)
    {f : Fact} : s'.Records f ↔ s.Records f ∨ ∃ o ∈ new, f = .pointsTo x o := by
  obtain ⟨hnew, ⟨hnone, rfl⟩ | ⟨⟨o, ho⟩, rfl⟩⟩ := absorb_cases h
  · simp [hnone]
  · rw [hnew, SortedSet.mem_difference] at ho
    have hsets := hx ⟨o, ho.1⟩
    cases f with
    | pointsTo y o' =>
      simp only [Records, Elements.objectsOf_setObjects _ hsets, Fact.pointsTo.injEq]
      split
      · next hxy =>
        subst hxy
        simp
      · next hxy => simp [Ne.symm hxy]
    | _ => simp [Records]

theorem extends_absorb : s.elements.Extends s'.elements ∧ s'.heap = s.heap := by
  rcases (absorb_cases h).2 with ⟨-, rfl⟩ | ⟨-, rfl⟩
  · exact ⟨.refl _, rfl⟩
  · exact ⟨.setObjects .., rfl⟩

end

/-! The next entry of the work list is taken and absorbed. -/

section

variable {pending : Queue (PointerId × ObjSet)} {n : Nat} {new : ObjSet}
  (hpop : s.pending.pop? = some ((x, objs), pending))
include hpop

theorem promises_of_pop? {o : ObjCloneId} (ho : o ∈ objs) : s.Promises (.pointsTo x o) := by
  refine .inr ⟨x, o, rfl, objs, ?_, ho⟩
  rw [Queue.toList_of_pop?_eq_some hpop]
  exact List.mem_cons_self

variable (habsorb : State.absorb { s with pending, propagations := n } x objs = (new, s'))
include habsorb

theorem awaits_taken {y : PointerId} {o : ObjCloneId} (ho : s.Awaits y o) :
    s'.Awaits y o ∨ y = x ∧ o ∈ objs := by
  obtain ⟨os, hos, ho⟩ := ho
  rw [Queue.toList_of_pop?_eq_some hpop] at hos
  rcases List.mem_cons.1 hos with hos | hos
  · cases hos
    exact .inr ⟨rfl, ho⟩
  · exact .inl ((awaits_absorb habsorb).2 (.inl ⟨os, hos, ho⟩))

theorem of_awaits_taken {y : PointerId} {o : ObjCloneId} (ho : s'.Awaits y o) :
    s.Awaits y o ∨ s.Records (.flow x y) ∧ o ∈ new := by
  rcases (awaits_absorb habsorb).1 ho with ⟨os, hos, ho⟩ | hflow
  · refine .inl ⟨os, ?_, ho⟩
    rw [Queue.toList_of_pop?_eq_some hpop]
    exact .tail _ hos
  · exact .inr hflow

end

end State

namespace Balanced

theorem send (h : Balanced p σ D s (due ∪ {.pointsTo a l})) {x : PointerId} {o : ObjCloneId}
    (ha : s.slot x = some a) (hl : s.location o = some l) :
    (SolverM.send x (.singleton o)).Ensures s fun _ s' => s.Extends s' ∧ Balanced p σ D s' due := by
  have hx : s.Extends (s.send x (.singleton o)) := State.extends_send
  have hread : (s.send x (.singleton o)).read (.pointsTo x o) = some (.pointsTo a l) :=
    hx.read (State.read_pointsTo_eq.2 ⟨a, l, ha, hl, rfl⟩)
  have hd : D (.pointsTo a l) := h.derivable_due (.inr rfl)
  refine .modify ⟨hx, h.evolve hx ?_ (fun J hJ => h.derivable_due (.inl hJ)) ?_ (fun _ _ => .inl)
    (fun _ _ _ hxy hxo => .inl ⟨State.records_send.1 hxy, State.records_send.1 hxo⟩)
    (fun _ _ _ hf _ _ => .inl (State.records_send.1 hf))⟩
  · intro f hf
    rcases State.promises_send.1 hf with hf | ⟨o', ho', rfl⟩
    · exact .inl hf
    · obtain rfl : o' = o := by simpa [SortedSet.singleton] using ho'
      exact .inr ⟨_, hread, hd⟩
  · rintro J (hJ | rfl)
    · exact .inr hJ
    · exact .inl ⟨_, State.promises_send.2 (.inr ⟨o, by simp [SortedSet.singleton], rfl⟩), hread⟩

section

variable (hD : Saturated p σ D)
include hD

/-- An object of the source of a flow may be promised to the target. -/
theorem carried (h : Balanced p σ D s due) (hx : s.Extends s') {x y : PointerId} {o : ObjCloneId}
    (hf : s.Records (.flow x y)) (ho : s.Promises (.pointsTo x o)) :
    ∃ J, s'.read (.pointsTo y o) = some J ∧ D J := by
  obtain ⟨J, hJ, hd⟩ := h.derivable (.inl hf)
  obtain ⟨a, b, ha, hb, rfl⟩ := State.read_flow_eq.1 hJ
  obtain ⟨J, hJ, hd'⟩ := h.derivable ho
  obtain ⟨a', l, ha', hl, rfl⟩ := State.read_pointsTo_eq.1 hJ
  cases ha.symm.trans ha'
  exact ⟨_, hx.read (State.read_pointsTo_eq.2 ⟨b, l, hb, hl, rfl⟩), hD.carried hd hd'⟩

end

section

variable (h : Balanced p σ D s due) {x : PointerId} {objs new : ObjSet}
  {pending : Queue (PointerId × ObjSet)} {n : Nat}
  (hpop : s.pending.pop? = some ((x, objs), pending))
  (habsorb : State.absorb { s with pending, propagations := n } x objs = (new, s'))
include h hpop habsorb

theorem records_taken {f : Fact} : s'.Records f ↔ s.Records f ∨ ∃ o ∈ new, f = .pointsTo x o := by
  have hvalid : (∃ o, o ∈ objs) → x.index < s.elements.pointers.sets.size := by
    intro hne
    obtain ⟨o, ho⟩ := hne
    obtain ⟨J, hJ, -⟩ := h.derivable (State.promises_of_pop? hpop ho)
    obtain ⟨a, l, ha, -⟩ := State.read_pointsTo_eq.1 hJ
    obtain ⟨r, hr, -⟩ := State.slot_eq_some_iff.1 ha
    exact h.inStep.lt_size hr
  exact (State.records_absorb habsorb hvalid).trans (or_congr_left (by cases f <;> rfl))

theorem extends_taken : s.Extends s' := by
  obtain ⟨he, hheap⟩ := State.extends_absorb habsorb
  have hr := fun f => h.records_taken hpop habsorb (f := f)
  refine ⟨he, fun ho => hheap ▸ ho, fun hf => (hr _).2 (.inl hf), ?_⟩
  rintro f (hf | ⟨y, o, rfl, ho⟩)
  · exact .inl ((hr f).2 (.inl hf))
  · rcases State.awaits_taken hpop habsorb ho with ho | ⟨rfl, ho⟩
    · exact .inr ⟨y, o, rfl, ho⟩
    · by_cases hknown : o ∈ s.elements.objectsOf y
      · exact .inl ((hr _).2 (.inl hknown))
      · exact .inl ((hr _).2 (.inr ⟨o, (State.mem_absorbed_iff habsorb).2 ⟨ho, hknown⟩, rfl⟩))

end

section

variable (hD : Saturated p σ D)
include hD

theorem addFlow (h : Balanced p σ D s (due ∪ {.flow a b})) {x y : PointerId}
    (ha : s.slot x = some a) (hb : s.slot y = some b) :
    s.Extends (s.addFlow x y) ∧ Balanced p σ D (s.addFlow x y) due := by
  have hread : s.read (.flow x y) = some (.flow a b) :=
    State.read_flow_eq.2 ⟨a, b, ha, hb, rfl⟩
  have hd : D (.flow a b) := h.derivable_due (.inr rfl)
  cases hedge : s.flow.hasEdge x y with
  | true =>
    rw [State.addFlow_of_hasEdge hedge]
    refine ⟨.refl s, h.pay Set.subset_union_left ?_⟩
    rintro J (hJ | rfl)
    · exact .inr hJ
    · exact .inl ⟨.flow x y, .inl ((s.flow.hasEdge_iff).1 hedge), hread⟩
  | false =>
    have hx := State.extends_addFlow hedge
    refine ⟨hx, h.evolve hx ?_ (fun J hJ => h.derivable_due (.inl hJ)) ?_ ?_ ?_ ?_⟩
    · intro f hf
      rcases (State.promises_addFlow hedge).1 hf with hf | rfl | ⟨o, ho, rfl⟩
      · exact .inl hf
      · exact .inr ⟨_, hx.read hread, hd⟩
      · obtain ⟨J, hJ, hda⟩ := h.derivable (f := .pointsTo x o) (.inl ho)
        obtain ⟨a', l, ha', hl, rfl⟩ := State.read_pointsTo_eq.1 hJ
        cases ha.symm.trans ha'
        exact .inr ⟨_, State.read_pointsTo_eq.2 ⟨b, l, hx.slot hb, hx.location hl, rfl⟩,
          hD.carried hd hda⟩
    · rintro J (hJ | rfl)
      · exact .inr hJ
      · exact .inl ⟨_, (State.promises_addFlow hedge).2 (.inr (.inl rfl)), hx.read hread⟩
    · intro n r hn
      rw [State.heap_addFlow] at hn
      exact .inl hn
    · intro u v o huv huo
      rw [State.records_addFlow hedge] at huv huo
      simp only [reduceCtorEq, or_false] at huo
      rcases huv with huv | huv
      · exact .inl ⟨huv, huo⟩
      · cases huv
        exact .inr ((State.promises_addFlow hedge).2 (.inr (.inr ⟨o, huo, rfl⟩)))
    · intro f J J' hf hJ hJ'
      rcases (State.records_addFlow hedge).1 hf with hf | rfl
      · exact .inl hf
      · cases (hx.read hread).symm.trans hJ
        cases hJ'

/-- A new fact of the call graph pays its judgement and owes what follows from it. -/
theorem record {J : Judgement} (h : Balanced p σ D s (due ∪ {J})) {f : Fact} {calls : CallGraph}
    (hJ : s.read f = some J)
    (hr : ∀ f', State.Records { s with calls } f' ↔ s.Records f' ∨ f' = f) :
    s.Extends { s with calls } ∧
      Balanced p σ D { s with calls } (due ∪ {J' | Consequence p σ J J'}) := by
  have hp : ∀ f', State.Promises { s with calls } f' ↔ s.Promises f' ∨ f' = f :=
    fun f' => (or_congr_left (hr f')).trans or_right_comm
  have hx : s.Extends { s with calls } :=
    ⟨.refl _, id, fun hf => (hr _).2 (.inl hf), fun hf => (hp _).2 (.inl hf)⟩
  have hread := hx.read hJ
  have hd : D J := h.derivable_due (.inr rfl)
  refine ⟨hx, h.evolve hx ?_ ?_ ?_ (fun _ _ => .inl) (fun _ _ _ hxy hxo => .inl ⟨hxy, hxo⟩) ?_⟩
  · intro f' hf
    rcases (hp f').1 hf with hf | rfl
    · exact .inl hf
    · exact .inr ⟨_, hread, hd⟩
  · rintro J' (hJ' | hJ')
    · exact h.derivable_due (.inl hJ')
    · exact hD.consequence hd hJ'
  · rintro J' (hJ' | rfl)
    · exact .inr (.inl hJ')
    · exact .inl ⟨_, (hp _).2 (.inr rfl), hread⟩
  · intro f' J' J'' hf hJ' hJ''
    rcases (hr f').1 hf with hf | rfl
    · exact .inl hf
    · cases hread.symm.trans hJ'
      exact .inr (.inr (.inr hJ''))

theorem addEdge (h : Balanced p σ D s (due ∪ {.call i})) {e : CallEdge}
    (hi : s.invocation e = some i) :
    s.Extends { s with calls := s.calls.addEdge e } ∧
      Balanced p σ D { s with calls := s.calls.addEdge e }
        (due ∪ {J | Consequence p σ (.call i) J}) :=
  h.record hD (State.read_call_eq.2 ⟨i, hi, rfl⟩) fun _ => State.records_addCall

theorem addReachable (h : Balanced p σ D s (due ∪ {.reachable t m})) {c : MethodCloneId}
    (hc : s.read (.reachable c) = some (.reachable t m)) :
    s.Extends { s with calls := s.calls.addReachable c } ∧
      Balanced p σ D { s with calls := s.calls.addReachable c }
        (due ∪ {J | Consequence p σ (.reachable t m) J}) :=
  h.record hD hc fun _ => State.records_addReachable

/-- Taking an entry from the work list owes what follows from the objects that are new. -/
theorem absorb (h : Balanced p σ D s due) {x : PointerId} {objs new : ObjSet}
    {pending : Queue (PointerId × ObjSet)} {n : Nat}
    (hpop : s.pending.pop? = some ((x, objs), pending))
    (habsorb : State.absorb { s with pending, propagations := n } x objs = (new, s')) :
    s.Extends s' ∧ (∀ o ∈ new, s'.Records (.pointsTo x o)) ∧ Balanced p σ D s' (due ∪
      {J' | ∃ o ∈ new, ∃ J, s'.read (.pointsTo x o) = some J ∧ Consequence p σ J J'}) := by
  have hx := h.extends_taken hpop habsorb
  have hr := fun f => h.records_taken hpop habsorb (f := f)
  have hheap := (State.extends_absorb habsorb).2
  have hcoming : ∀ o ∈ new, s.Promises (.pointsTo x o) := fun o ho =>
    State.promises_of_pop? hpop ((State.mem_absorbed_iff habsorb).1 ho).1
  refine ⟨hx, fun o ho => (hr _).2 (.inr ⟨o, ho, rfl⟩), h.evolve hx ?_ ?_
    (fun J hJ => .inr (.inl hJ)) (fun o r ho => .inl (hheap ▸ ho)) ?_ ?_⟩
  · rintro f (hf | ⟨y, o, rfl, ho⟩)
    · rcases (hr f).1 hf with hf | ⟨o, ho, rfl⟩
      · exact .inl (.inl hf)
      · exact .inl (hcoming o ho)
    · rcases State.of_awaits_taken hpop habsorb ho with ho | ⟨hflow, ho⟩
      · exact .inl (.inr ⟨y, o, rfl, ho⟩)
      · exact .inr (h.carried hD hx hflow (hcoming o ho))
  · rintro J (hJ | ⟨o, ho, J', hJ', hJ⟩)
    · exact h.derivable_due hJ
    · obtain ⟨J'', hJ'', hd⟩ := h.derivable (hcoming o ho)
      cases (hx.read hJ'').symm.trans hJ'
      exact hD.consequence hd hJ
  · intro y z o hyz hyo
    have hyz : s.Records (.flow y z) := by simpa using (hr _).1 hyz
    rcases (hr _).1 hyo with hyo | ⟨o', ho', heq⟩
    · exact .inl ⟨hyz, hyo⟩
    · cases heq
      exact .inr (.inr ⟨z, o, rfl, (State.awaits_absorb habsorb).2 (.inr ⟨hyz, ho'⟩)⟩)
  · intro f J J' hf hJ hJ'
    rcases (hr f).1 hf with hf | ⟨o, ho, rfl⟩
    · exact .inl hf
    · exact .inr (.inr (.inr ⟨o, ho, J, hJ, hJ'⟩))

end

end Balanced

end ProgramFlow.PointsTo
