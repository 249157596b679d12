import Mathlib.Data.Option.Basic
import ProgramFlow.PointsTo.Solver
import ProgramFlow.Proofs.PointsTo.Pointers
import ProgramFlow.Proofs.PointsTo.Rules
/-!
What the numbers in a state of the analysis stand for, and the facts that a state records with
them. A number keeps its meaning while the state grows, and no two facts have the same meaning.
-/
namespace ProgramFlow.PointsTo

theorem mapM_eq_some_iff {α β : Type} {f : α → Option β} {l : List α} {r : List β} :
    l.mapM f = some r ↔ l.map f = r.map some := by
  induction l generalizing r with
  | nil => cases r <;> simp
  | cons a l ih =>
    cases r with
    | nil => simp [Option.bind_eq_some_iff]
    | cons b r => simp [Option.bind_eq_some_iff, ← ih]

theorem map_takeLast {α β : Type} (f : α → β) (k : Nat) (l : List α) :
    (takeLast k l).map f = takeLast k (l.map f) := by
  simp [takeLast]

/-- What a state records, in its own numbers. -/
inductive Fact
  | reachable (m : MethodCloneId)
  | pointsTo (x : PointerId) (o : ObjCloneId)
  | flow (source target : PointerId)
  | call (e : CallEdge)

/-- The pointer that a number names. -/
def Elements.pointer? (e : Elements) (x : PointerId) : Option Pointer :=
  e.pointers.names.get? x

namespace State

section

variable (s : State)

def Records : Fact → Prop
  | .reachable m => m ∈ s.calls.reachable.toList
  | .pointsTo x o => o ∈ s.elements.objectsOf x
  | .flow x y => y ∈ s.flow.succs x
  | .call e => e ∈ s.calls.edges.toList

/-- The object is on its way to the pointer. -/
def Awaits (x : PointerId) (o : ObjCloneId) : Prop :=
  ∃ objs, (x, objs) ∈ s.pending.toList ∧ o ∈ objs

/-- The fact is recorded, or it is that an object points somewhere where it is on its way to. -/
def Promises (f : Fact) : Prop := s.Records f ∨ ∃ x o, f = .pointsTo x o ∧ s.Awaits x o

def mark : ContextElement → Option Mark
  | .callSite site => some (.callSite site)
  | .object o => (s.heap.get? o).map fun x => .object x.site
  | .type c => some (.type c)

def trail (c : ContextId) : Option Trail := do (← s.elements.contexts.get? c).elements.mapM s.mark

def location (o : ObjCloneId) : Option Location := do
  let clone ← s.elements.objects.get? o
  let obj ← s.heap.get? clone.obj
  return ⟨← s.trail clone.context, obj.site⟩

def slotOf : Pointer → Option Slot
  | .var c v => (.var · v) <$> s.trail c
  | .staticField f => some (.staticField f)
  | .instanceField o f => (.instanceField · f) <$> s.location o
  | .arrayElement o => .arrayElement <$> s.location o

def slot (x : PointerId) : Option Slot := s.elements.pointer? x >>= s.slotOf

/-- The call of an edge; its site and the method clone around it are in one context. -/
def invocation (e : CallEdge) : Option Invocation := do
  let site ← s.elements.callSites.get? e.site
  let caller ← s.elements.methods.get? site.container
  let callee ← s.elements.methods.get? e.callee
  guard (caller.context = site.context)
  return ⟨e.kind, site.site, caller.method, ← s.trail caller.context, callee.method,
    ← s.trail callee.context⟩

/-- The judgement that a fact stands for. -/
def read : Fact → Option Judgement
  | .reachable m => do
    let clone ← s.elements.methods.get? m
    return .reachable (← s.trail clone.context) clone.method
  | .pointsTo x o => return .pointsTo (← s.slot x) (← s.location o)
  | .flow x y => return .flow (← s.slot x) (← s.slot y)
  | .call e => return .call (← s.invocation e)

end

variable {s s' : State}

theorem trail_eq_some_iff {c : ContextId} {t : Trail} : s.trail c = some t ↔
    ∃ x, s.elements.contexts.get? c = some x ∧ x.elements.map s.mark = t.map some := by
  simp [trail, Option.bind_eq_some_iff, mapM_eq_some_iff]

theorem location_eq_some_iff {o : ObjCloneId} {l : Location} : s.location o = some l ↔
    ∃ clone obj, s.elements.objects.get? o = some clone ∧ s.heap.get? clone.obj = some obj ∧
      s.trail clone.context = some l.trail ∧ obj.site = l.site := by
  obtain ⟨t, site⟩ := l
  simp [location, Option.bind_eq_some_iff]

theorem slotOf_var {c : ContextId} {t : Trail} (h : s.trail c = some t) (v : VarId) :
    s.slotOf (.var c v) = some (.var t v) :=
  Option.map_eq_some_iff.2 ⟨t, h, rfl⟩

theorem slotOf_instanceField {o : ObjCloneId} {l : Location} (h : s.location o = some l)
    (f : FieldId) : s.slotOf (.instanceField o f) = some (.instanceField l f) :=
  Option.map_eq_some_iff.2 ⟨l, h, rfl⟩

theorem slotOf_arrayElement {o : ObjCloneId} {l : Location} (h : s.location o = some l) :
    s.slotOf (.arrayElement o) = some (.arrayElement l) :=
  Option.map_eq_some_iff.2 ⟨l, h, rfl⟩

theorem slot_eq_some_iff {x : PointerId} {a : Slot} :
    s.slot x = some a ↔ ∃ r, s.elements.pointer? x = some r ∧ s.slotOf r = some a :=
  Option.bind_eq_some_iff

theorem slotOf_of_slot {x : PointerId} {a : Slot} (ha : s.slot x = some a) {r : Pointer}
    (hr : s.elements.pointer? x = some r) : s.slotOf r = some a := by
  obtain ⟨r', hr', ha⟩ := slot_eq_some_iff.1 ha
  cases hr.symm.trans hr'
  exact ha

theorem invocation_eq_some_iff {e : CallEdge} {i : Invocation} : s.invocation e = some i ↔
    ∃ site caller callee, s.elements.callSites.get? e.site = some site ∧
      s.elements.methods.get? site.container = some caller ∧
      s.elements.methods.get? e.callee = some callee ∧ caller.context = site.context ∧
      s.trail caller.context = some i.callerTrail ∧ s.trail callee.context = some i.calleeTrail ∧
      e.kind = i.kind ∧ site.site = i.site ∧ caller.method = i.caller ∧
      callee.method = i.callee := by
  obtain ⟨k, site, caller, t, callee, t'⟩ := i
  simp only [invocation, Option.bind_eq_bind, Option.bind_eq_some_iff, Option.guard_eq_some',
    Option.pure_def, Option.some.injEq, Invocation.mk.injEq]
  constructor
  · rintro ⟨x, hx, y, hy, z, hz, _, hc, _, ht, _, ht', hk, hs, hm, rfl, hm', rfl⟩
    exact ⟨x, y, z, hx, hy, hz, hc, ht, ht', hk, hs, hm, hm'⟩
  · rintro ⟨x, y, z, hx, hy, hz, hc, ht, ht', hk, hs, hm, hm'⟩
    exact ⟨x, hx, y, hy, z, hz, (), hc, _, ht, _, ht', hk, hs, hm, rfl, hm', rfl⟩

theorem read_reachable_eq {m : MethodCloneId} {J : Judgement} : s.read (.reachable m) = some J ↔
    ∃ clone t, s.elements.methods.get? m = some clone ∧ s.trail clone.context = some t ∧
      .reachable t clone.method = J := by
  simp [read, Option.bind_eq_some_iff]

theorem read_pointsTo_eq {x : PointerId} {o : ObjCloneId} {J : Judgement} :
    s.read (.pointsTo x o) = some J ↔
    ∃ a l, s.slot x = some a ∧ s.location o = some l ∧ .pointsTo a l = J := by
  simp [read, Option.bind_eq_some_iff]

theorem read_flow_eq {x y : PointerId} {J : Judgement} : s.read (.flow x y) = some J ↔
    ∃ a b, s.slot x = some a ∧ s.slot y = some b ∧ .flow a b = J := by
  simp [read, Option.bind_eq_some_iff]

theorem read_call_eq {e : CallEdge} {J : Judgement} : s.read (.call e) = some J ↔
    ∃ i, s.invocation e = some i ∧ .call i = J := by
  simp [read, Option.bind_eq_some_iff]

theorem of_read_reachable {f : Fact} {t : Trail} {m : MethodId}
    (h : s.read f = some (.reachable t m)) : ∃ n clone, f = .reachable n ∧
      s.elements.methods.get? n = some clone ∧ s.trail clone.context = some t ∧
      clone.method = m := by
  cases f with
  | reachable n =>
    obtain ⟨clone, u, hn, hu, he⟩ := read_reachable_eq.1 h
    obtain ⟨rfl, rfl⟩ := Judgement.reachable.inj he
    exact ⟨n, clone, rfl, hn, hu, rfl⟩
  | _ => simp [read_pointsTo_eq, read_flow_eq, read_call_eq] at h

theorem of_read_pointsTo {f : Fact} {a : Slot} {l : Location}
    (h : s.read f = some (.pointsTo a l)) :
    ∃ x o, f = .pointsTo x o ∧ s.slot x = some a ∧ s.location o = some l := by
  cases f with
  | pointsTo x o =>
    obtain ⟨b, l', hb, hl, he⟩ := read_pointsTo_eq.1 h
    obtain ⟨rfl, rfl⟩ := Judgement.pointsTo.inj he
    exact ⟨x, o, rfl, hb, hl⟩
  | _ => simp [read_reachable_eq, read_flow_eq, read_call_eq] at h

theorem of_read_flow {f : Fact} {a b : Slot} (h : s.read f = some (.flow a b)) :
    ∃ x y, f = .flow x y ∧ s.slot x = some a ∧ s.slot y = some b := by
  cases f with
  | flow x y =>
    obtain ⟨a', b', ha, hb, he⟩ := read_flow_eq.1 h
    obtain ⟨rfl, rfl⟩ := Judgement.flow.inj he
    exact ⟨x, y, rfl, ha, hb⟩
  | _ => simp [read_reachable_eq, read_pointsTo_eq, read_call_eq] at h

theorem of_read_call {f : Fact} {i : Invocation} (h : s.read f = some (.call i)) :
    ∃ e, f = .call e ∧ s.invocation e = some i := by
  cases f with
  | call e =>
    obtain ⟨i', hi, he⟩ := read_call_eq.1 h
    obtain rfl := Judgement.call.inj he
    exact ⟨e, rfl, hi⟩
  | _ => simp [read_reachable_eq, read_pointsTo_eq, read_flow_eq] at h

/-! ## Contexts that the analysis selects -/

section

variable {σ : Sensitivity} {x : Context} {t : Trail} (hx : x.elements.map s.mark = t.map some)
include hx

theorem marks_append {e : ContextElement} {y : Mark} (he : s.mark e = some y) (k : Nat) :
    (x.append e k).elements.map s.mark = (takeLast k (t ++ [y])).map some := by
  simp [Context.append, map_takeLast, hx, he]

theorem marks_staticContext (site : StmtId) :
    (σ.staticContext x site).elements.map s.mark = (σ.staticTrail t site).map some := by
  cases σ with
  | insensitive => rfl
  | callSite k => exact marks_append hx rfl k
  | object k => exact hx
  | type k => exact hx

theorem marks_heapContext :
    (σ.heapContext x).elements.map s.mark = (σ.heapTrail t).map some := by
  cases σ with
  | insensitive => rfl
  | callSite k =>
    simp [Sensitivity.heapContext, Sensitivity.heapTrail, Context.truncate, map_takeLast, hx]
  | object k =>
    simp [Sensitivity.heapContext, Sensitivity.heapTrail, Context.truncate, map_takeLast, hx]
  | type k =>
    simp [Sensitivity.heapContext, Sensitivity.heapTrail, Context.truncate, map_takeLast, hx]

theorem marks_instanceContext {y : Context} {l : Location} {n : ObjId} {o : Obj}
    (hy : y.elements.map s.mark = l.trail.map some) (ho : s.heap.get? n = some o)
    (hl : o.site = l.site) (site : StmtId) :
    (σ.instanceContext x site y n o).elements.map s.mark =
      (σ.instanceTrail t site l o.owner).map some := by
  have hn : s.mark (.object n) = some (.object l.site) :=
    Option.map_eq_some_iff.2 ⟨o, ho, congrArg Mark.object hl⟩
  cases σ with
  | insensitive => rfl
  | callSite k => exact marks_append hx rfl k
  | object k => exact marks_append hy hn k
  | type k => exact marks_append hy rfl k

end

/-! ## One meaning for each number -/

theorem mark_injective {a b : ContextElement} {x : Mark} (ha : s.mark a = some x)
    (hb : s.mark b = some x) : a = b := by
  cases a <;> cases b <;> simp only [mark, Option.map_eq_some_iff, Option.some.injEq] at ha hb
  all_goals grind [Numbering.get?_injective]

theorem marks_injective {l r : List ContextElement} {t : Trail}
    (hl : l.map s.mark = t.map some) (hr : r.map s.mark = t.map some) : l = r := by
  induction t generalizing l r with
  | nil => simp_all
  | cons x t ih =>
    rw [List.map_cons] at hl hr
    obtain ⟨a, l, rfl, ha, hl⟩ := List.map_eq_cons_iff.1 hl
    obtain ⟨b, r, rfl, hb, hr⟩ := List.map_eq_cons_iff.1 hr
    rw [mark_injective ha hb, ih hl hr]

/-- A context with the marks of a trail has the number that the trail is read from. -/
theorem contexts_of_trail {c : ContextId} {x : Context} {t : Trail} (hc : s.trail c = some t)
    (hx : x.elements.map s.mark = t.map some) : s.elements.contexts.get? c = some x := by
  obtain ⟨⟨l⟩, hl, hmarks⟩ := trail_eq_some_iff.1 hc
  cases marks_injective hmarks hx
  exact hl

theorem trail_injective {c d : ContextId} {t : Trail} (hc : s.trail c = some t)
    (hd : s.trail d = some t) : c = d := by
  obtain ⟨x, hx, hmarks⟩ := trail_eq_some_iff.1 hd
  exact Numbering.get?_injective (contexts_of_trail hc hmarks) hx rfl

theorem location_injective {o o' : ObjCloneId} {l : Location} (ho : s.location o = some l)
    (ho' : s.location o' = some l) : o = o' := by
  obtain ⟨⟨c, n⟩, obj, hc, hn, ht, hs⟩ := location_eq_some_iff.1 ho
  obtain ⟨⟨c', n'⟩, obj', hc', hn', ht', hs'⟩ := location_eq_some_iff.1 ho'
  cases trail_injective ht ht'
  cases Numbering.get?_injective hn hn' (hs.trans hs'.symm)
  exact Numbering.get?_injective hc hc' rfl

theorem slotOf_injective {r r' : Pointer} {a : Slot} (h : s.slotOf r = some a)
    (h' : s.slotOf r' = some a) : r = r' := by
  cases r <;> cases r' <;> simp only [slotOf, Option.map_eq_map, Option.map_eq_some_iff,
    Option.some.injEq] at h h'
  all_goals grind [trail_injective, location_injective]

theorem pointer?_of_slot {x : PointerId} {a : Slot} {r : Pointer} (hx : s.slot x = some a)
    (hr : s.slotOf r = some a) : s.elements.pointer? x = some r := by
  obtain ⟨r', hr', ha⟩ := slot_eq_some_iff.1 hx
  cases slotOf_injective ha hr
  exact hr'

theorem slot_injective {x y : PointerId} {a : Slot} (hx : s.slot x = some a)
    (hy : s.slot y = some a) : x = y := by
  obtain ⟨r, hr, ha⟩ := slot_eq_some_iff.1 hy
  exact Numbering.get?_injective (pointer?_of_slot hx ha) hr rfl

theorem clone_injective {m m' : MethodCloneId} {x y : MethodClone} {t : Trail}
    (hx : s.elements.methods.get? m = some x) (hy : s.elements.methods.get? m' = some y)
    (hxt : s.trail x.context = some t) (hyt : s.trail y.context = some t)
    (h : x.method = y.method) : m = m' := by
  have hc := trail_injective hxt hyt
  exact Numbering.get?_injective hx hy (by cases x; cases y; simp_all)

theorem invocation_injective {e e' : CallEdge} {i : Invocation} (h : s.invocation e = some i)
    (h' : s.invocation e' = some i) : e = e' := by
  obtain ⟨x, y, z, hx, hy, hz, hc, ht, hu, hk, hs, hm, hn⟩ := invocation_eq_some_iff.1 h
  obtain ⟨x', y', z', hx', hy', hz', hc', ht', hu', hk', hs', hm', hn'⟩ :=
    invocation_eq_some_iff.1 h'
  have hcaller := clone_injective hy hy' ht ht' (hm.trans hm'.symm)
  have hcallee := clone_injective hz hz' hu hu' (hn.trans hn'.symm)
  have hctx := hc.symm.trans ((trail_injective ht ht').trans hc')
  have hsite := Numbering.get?_injective hx hx' (by cases x; cases x'; simp_all)
  cases e
  cases e'
  simp_all

/-- No two facts stand for the same judgement. -/
theorem read_injective {f f' : Fact} {J : Judgement} (h : s.read f = some J)
    (h' : s.read f' = some J) : f = f' := by
  cases J with
  | reachable t m =>
    obtain ⟨n, x, rfl, hx, ht, hm⟩ := of_read_reachable h
    obtain ⟨n', y, rfl, hy, hu, hm'⟩ := of_read_reachable h'
    rw [clone_injective hx hy ht hu (hm.trans hm'.symm)]
  | pointsTo a l =>
    obtain ⟨x, o, rfl, hx, ho⟩ := of_read_pointsTo h
    obtain ⟨y, o', rfl, hy, ho'⟩ := of_read_pointsTo h'
    rw [slot_injective hx hy, location_injective ho ho']
  | flow a b =>
    obtain ⟨x, y, rfl, hx, hy⟩ := of_read_flow h
    obtain ⟨x', y', rfl, hx', hy'⟩ := of_read_flow h'
    rw [slot_injective hx hx', slot_injective hy hy']
  | call i =>
    obtain ⟨e, rfl, he⟩ := of_read_call h
    obtain ⟨e', rfl, he'⟩ := of_read_call h'
    rw [invocation_injective he he']

end State

/-! ## Growth -/

/-- Numbers keep what they were given for, and pointers and sets stay in step. -/
structure Elements.Extends (e e' : Elements) : Prop where
  contexts : ∀ {c x}, e.contexts.get? c = some x → e'.contexts.get? c = some x
  objects : ∀ {o x}, e.objects.get? o = some x → e'.objects.get? o = some x
  methods : ∀ {m x}, e.methods.get? m = some x → e'.methods.get? m = some x
  callSites : ∀ {c x}, e.callSites.get? c = some x → e'.callSites.get? c = some x
  pointers : ∀ {x r}, e.pointer? x = some r → e'.pointer? x = some r
  inStep : e.pointers.InStep → e'.pointers.InStep

namespace Elements.Extends

variable {e e' e'' : Elements}

theorem refl (e : Elements) : e.Extends e := by
  constructor <;> exact id

theorem trans (h : e.Extends e') (h' : e'.Extends e'') : e.Extends e'' where
  contexts := h'.contexts ∘ h.contexts
  objects := h'.objects ∘ h.objects
  methods := h'.methods ∘ h.methods
  callSites := h'.callSites ∘ h.callSites
  pointers := h'.pointers ∘ h.pointers
  inStep := h'.inStep ∘ h.inStep

theorem context (e : Elements) (c : Context) : e.Extends (e.context c).2 :=
  { refl e with contexts := Numbering.get?_ensure }

theorem object (e : Elements) (o : ObjClone) : e.Extends (e.object o).2 :=
  { refl e with objects := Numbering.get?_ensure }

theorem method (e : Elements) (m : MethodClone) : e.Extends (e.method m).2 :=
  { refl e with methods := Numbering.get?_ensure }

theorem callSite (e : Elements) (c : CallClone) : e.Extends (e.callSite c).2 :=
  { refl e with callSites := Numbering.get?_ensure }

theorem pointer (e : Elements) (x : Pointer) : e.Extends (e.pointer x).2 :=
  { refl e with pointers := Numbering.get?_ensure, inStep := fun h => h.ensure x }

theorem setObjects (e : Elements) (x : PointerId) (objs : ObjSet) :
    e.Extends (e.setObjects x objs) :=
  { refl e with inStep := fun h => h.setObjects x objs }

end Elements.Extends

/-- Numbers keep their meaning and facts are only added. -/
structure State.Extends (s s' : State) : Prop where
  elements : s.elements.Extends s'.elements
  heap : ∀ {o x}, s.heap.get? o = some x → s'.heap.get? o = some x
  records : ∀ {f}, s.Records f → s'.Records f
  promises : ∀ {f}, s.Promises f → s'.Promises f

namespace State.Extends

variable {s s' s'' : State}

theorem refl (s : State) : s.Extends s :=
  ⟨.refl _, id, id, id⟩

theorem trans (h : s.Extends s') (h' : s'.Extends s'') : s.Extends s'' where
  elements := h.elements.trans h'.elements
  heap := h'.heap ∘ h.heap
  records := h'.records ∘ h.records
  promises := h'.promises ∘ h.promises

section

variable (h : s.Extends s')
include h

theorem mark {e : ContextElement} {x : Mark} (he : s.mark e = some x) : s'.mark e = some x := by
  cases e with
  | callSite => exact he
  | object o =>
    obtain ⟨obj, ho, rfl⟩ := Option.map_eq_some_iff.1 he
    exact Option.map_eq_some_iff.2 ⟨obj, h.heap ho, rfl⟩
  | type => exact he

theorem marks {l : List ContextElement} {t : Trail} (hl : l.map s.mark = t.map some) :
    l.map s'.mark = t.map some := by
  induction t generalizing l with
  | nil => simp_all
  | cons x t ih =>
    obtain ⟨a, l, rfl, ha, hl⟩ := List.map_eq_cons_iff.1 hl
    rw [List.map_cons, List.map_cons, h.mark ha, ih hl]

theorem trail {c : ContextId} {t : Trail} (hc : s.trail c = some t) : s'.trail c = some t := by
  obtain ⟨x, hx, ht⟩ := trail_eq_some_iff.1 hc
  exact trail_eq_some_iff.2 ⟨x, h.elements.contexts hx, h.marks ht⟩

theorem location {o : ObjCloneId} {l : Location} (ho : s.location o = some l) :
    s'.location o = some l := by
  obtain ⟨clone, obj, hc, hn, ht, hs⟩ := location_eq_some_iff.1 ho
  exact location_eq_some_iff.2 ⟨clone, obj, h.elements.objects hc, h.heap hn, h.trail ht, hs⟩

theorem slotOf {r : Pointer} {a : Slot} (ha : s.slotOf r = some a) : s'.slotOf r = some a := by
  cases r with
  | var c v =>
    obtain ⟨t, ht, rfl⟩ := Option.map_eq_some_iff.1 ha
    exact slotOf_var (h.trail ht) v
  | staticField => exact ha
  | instanceField o f =>
    obtain ⟨l, hl, rfl⟩ := Option.map_eq_some_iff.1 ha
    exact slotOf_instanceField (h.location hl) f
  | arrayElement o =>
    obtain ⟨l, hl, rfl⟩ := Option.map_eq_some_iff.1 ha
    exact slotOf_arrayElement (h.location hl)

theorem slot {x : PointerId} {a : Slot} (ha : s.slot x = some a) : s'.slot x = some a := by
  obtain ⟨r, hr, ha⟩ := slot_eq_some_iff.1 ha
  exact slot_eq_some_iff.2 ⟨r, h.elements.pointers hr, h.slotOf ha⟩

theorem invocation {e : CallEdge} {i : Invocation} (hi : s.invocation e = some i) :
    s'.invocation e = some i := by
  obtain ⟨x, y, z, hx, hy, hz, hc, ht, hu, hi⟩ := invocation_eq_some_iff.1 hi
  exact invocation_eq_some_iff.2
    ⟨x, y, z, h.elements.callSites hx, h.elements.methods hy, h.elements.methods hz, hc,
      h.trail ht, h.trail hu, hi⟩

theorem read {f : Fact} {J : Judgement} (hf : s.read f = some J) : s'.read f = some J := by
  cases f with
  | reachable m =>
    obtain ⟨x, t, hx, ht, rfl⟩ := read_reachable_eq.1 hf
    exact read_reachable_eq.2 ⟨x, t, h.elements.methods hx, h.trail ht, rfl⟩
  | pointsTo x o =>
    obtain ⟨a, l, ha, hl, rfl⟩ := read_pointsTo_eq.1 hf
    exact read_pointsTo_eq.2 ⟨a, l, h.slot ha, h.location hl, rfl⟩
  | flow x y =>
    obtain ⟨a, b, ha, hb, rfl⟩ := read_flow_eq.1 hf
    exact read_flow_eq.2 ⟨a, b, h.slot ha, h.slot hb, rfl⟩
  | call e =>
    obtain ⟨i, hi, rfl⟩ := read_call_eq.1 hf
    exact read_call_eq.2 ⟨i, h.invocation hi, rfl⟩

end

end State.Extends

end ProgramFlow.PointsTo
