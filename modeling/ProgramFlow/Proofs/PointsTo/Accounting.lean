import ProgramFlow.Proofs.PointsTo.CallPaths
import ProgramFlow.Proofs.PointsTo.Resumption
/-!
No object is lost between two steps of the points-to analysis. In each state that successful steps
come to, what an object of a pointer asks for is recorded, or the object is on the work list for the
pointer that it has to reach; and a step takes nothing back.
-/
namespace ProgramFlow.PointsTo

/-- The states that a solver comes to by its start and then by steps that succeed. -/
inductive Stepped (p : Program) (σ : Sensitivity) : State → Prop
  | start {s} (h : (start p σ).run .initial = (.ok (), s)) : Stepped p σ s
  | step {s s' more} (hs : Stepped p σ s) (h : (step p σ).run s = (.ok more, s')) :
    Stepped p σ s'

namespace State

section

variable (s : State)

/-- There is a flow edge between the two pointers. -/
def HasFlow (source target : Pointer) : Prop :=
  ∃ x y, s.elements.pointer? x = some source ∧ s.elements.pointer? y = some target ∧
    y ∈ s.flow.succs x

/-- The object is in the set of the pointer or on the work list for it. -/
def Holds (r : Pointer) (o : ObjCloneId) : Prop :=
  ∃ x, s.elements.pointer? x = some r ∧ (o ∈ s.elements.objectsOf x ∨ s.Awaits x o)

/-- There is a call edge from the site in one clone to the other clone. -/
def HasCall (kind : CallKind) (site : StmtId) (caller callee : MethodClone) : Prop :=
  ∃ e ∈ s.calls.edges.toList, e.kind = kind ∧ ∃ n,
    s.elements.callSites.get? e.site = some ⟨caller.context, site, n⟩ ∧
    s.elements.methods.get? n = some caller ∧ s.elements.methods.get? e.callee = some callee

/-- The heap access is open for an object of the variable that it is based on. -/
def Opens (c : ContextId) (v : VarId) (o : ObjCloneId) : Instr → Prop
  | .storeField (.instance b f) rhs => b = v → s.HasFlow (.var c rhs) (.instanceField o f)
  | .loadField lhs (.instance b f) => b = v → s.HasFlow (.instanceField o f) (.var c lhs)
  | .storeArray access rhs => access.base = v → s.HasFlow (.var c rhs) (.arrayElement o)
  | .loadArray lhs access => access.base = v → s.HasFlow (.arrayElement o) (.var c lhs)
  | _ => True

/-- The call has its edge for an object of the receiver if it dispatches, and the object is in the
variable of the receiver in the called method or on its way there. -/
def Dispatches (p : Program) (σ : Sensitivity) (c : ContextId) (o : ObjCloneId) (site : StmtId)
    (m : MethodId) (call : Call) : Prop :=
  ∃ clone obj x y, s.elements.objects.get? o = some clone ∧ s.heap.get? clone.obj = some obj ∧
    s.elements.contexts.get? c = some x ∧ s.elements.contexts.get? clone.context = some y ∧
    ∀ callee, p.resolve obj.class? call = .ok (some callee) → ∃ c',
      s.elements.contexts.get? c' = some (σ.instanceContext x site y clone.obj obj) ∧
      s.HasCall call.kind site ⟨c, m⟩ ⟨c', callee⟩ ∧
      ∀ d this, p.method callee = .ok d → d.receiver = some this → s.Holds (.var c' this) o

/-- The statement of a reachable clone has had its effect. -/
def Performs (p : Program) (σ : Sensitivity) (clone : MethodClone) (owner : ClassId) (x : Context)
    (site : StmtId) : Instr → Prop
  | .new lhs ty => ∃ o c' obj, s.elements.objects.get? o = some ⟨c', obj⟩ ∧
      s.heap.get? obj = some ⟨site, ty, clone.method, owner⟩ ∧
      s.elements.contexts.get? c' = some (σ.heapContext x) ∧ s.Holds (.var clone.context lhs) o
  | .copy lhs rhs => s.HasFlow (.var clone.context rhs) (.var clone.context lhs)
  | .cast lhs operand _ => s.HasFlow (.var clone.context operand) (.var clone.context lhs)
  | .loadField lhs (.static f) => s.HasFlow (.staticField f) (.var clone.context lhs)
  | .storeField (.static f) rhs => s.HasFlow (.var clone.context rhs) (.staticField f)
  | .invoke call => call.kind = .static → ∀ callee, p.resolve none call = .ok (some callee) →
      ∃ c', s.elements.contexts.get? c' = some (σ.staticContext x site) ∧
        s.HasCall call.kind site clone ⟨c', callee⟩
  | _ => True

/-- The ends of a call edge are reachable, and arguments and results flow between them. -/
def Links (p : Program) (e : CallEdge) : Prop :=
  ∃ site caller callee call d, s.elements.callSites.get? e.site = some site ∧
    s.elements.methods.get? site.container = some caller ∧ caller.context = site.context ∧
    s.elements.methods.get? e.callee = some callee ∧
    p.Contains caller.method site.site (.invoke call) ∧ call.kind = e.kind ∧
    p.method callee.method = .ok d ∧ site.container ∈ s.calls.reachable.toList ∧
    e.callee ∈ s.calls.reachable.toList ∧
    (∀ a ∈ call.args.zip d.params,
      s.HasFlow (.var caller.context a.1) (.var callee.context a.2)) ∧
    ∀ lhs ∈ call.lhs, ∀ v ∈ d.returns,
      s.HasFlow (.var callee.context v) (.var caller.context lhs)

end

/-- All that the recorded facts ask for is recorded or on the work list. -/
structure Accounts (s : State) (p : Program) (σ : Sensitivity) : Prop where
  flow : ∀ {x y o}, y ∈ s.flow.succs x → o ∈ s.elements.objectsOf x →
    o ∈ s.elements.objectsOf y ∨ s.Awaits y o
  accesses : ∀ {x c v o}, s.elements.pointer? x = some (.var c v) → o ∈ s.elements.objectsOf x →
    ∀ site i, p.instr site = .ok i → s.Opens c v o i
  calls : ∀ {x c v o}, s.elements.pointer? x = some (.var c v) → o ∈ s.elements.objectsOf x →
    ∀ m site call, p.Contains m site (.invoke call) → call.receiver = some v →
      s.Dispatches p σ c o site m call
  edges : ∀ {e}, e ∈ s.calls.edges.toList → s.Links p e
  reachable : ∀ {n}, n ∈ s.calls.reachable.toList → ∃ clone d x,
    s.elements.methods.get? n = some clone ∧ p.method clone.method = .ok d ∧
    s.elements.contexts.get? clone.context = some x ∧
    ∀ site ∈ d.body, ∀ i, p.instr site = .ok i → s.Performs p σ clone d.owner x site i

end State

variable {p : Program} {σ : Sensitivity} {D : Judgement → Prop} {s s' : State}

/-! ## Judgements in numbers -/

namespace State

namespace Knows

theorem hasFlow {a b : Slot} (h : s.Knows (.flow a b)) {r r' : Pointer} (ha : s.slotOf r = some a)
    (hb : s.slotOf r' = some b) : s.HasFlow r r' := by
  obtain ⟨f, hf, hread⟩ := h
  obtain ⟨x, y, rfl, hx, hy⟩ := of_read_flow hread
  exact ⟨x, y, pointer?_of_slot hx ha, pointer?_of_slot hy hb, hf.resolve_right nofun⟩

theorem holds {a : Slot} {l : Location} (h : s.Knows (.pointsTo a l)) {r : Pointer}
    {o : ObjCloneId} (ha : s.slotOf r = some a) (hl : s.location o = some l) : s.Holds r o := by
  obtain ⟨f, hf, hread⟩ := h
  obtain ⟨x, o', rfl, hx, ho⟩ := of_read_pointsTo hread
  cases location_injective ho hl
  refine ⟨x, pointer?_of_slot hx ha, hf.imp_right ?_⟩
  rintro ⟨x', o', he, hawaits⟩
  cases he
  exact hawaits

theorem hasCall {i : Invocation} (h : s.Knows (.call i)) {c : ContextId} {x : Context}
    (hc : s.trail c = some i.callerTrail) (hx : x.elements.map s.mark = i.calleeTrail.map some) :
    ∃ c', s.elements.contexts.get? c' = some x ∧ s.trail c' = some i.calleeTrail ∧
      s.HasCall i.kind i.site ⟨c, i.caller⟩ ⟨c', i.callee⟩ := by
  obtain ⟨f, hf, hread⟩ := h
  obtain ⟨e, rfl, he⟩ := of_read_call hread
  obtain ⟨⟨c₀, site, n⟩, ⟨c₁, m⟩, ⟨c', callee⟩, hsite, hcaller, hcallee, hcc, ht, ht', hkind, hs,
    hm, hm'⟩ := invocation_eq_some_iff.1 he
  dsimp only at hcc ht ht' hs hm hm'
  subst hcc hs hm hm'
  cases trail_injective ht hc
  exact ⟨c', contexts_of_trail ht' hx, ht', e, hf.resolve_right nofun, hkind, n, hsite, hcaller,
    hcallee⟩

end Knows

end State

/-! ## What a balanced state accounts for -/

namespace Balanced

variable (h : Balanced p σ D s ∅)
include h

theorem flows {x y : PointerId} {o : ObjCloneId} (hxy : y ∈ s.flow.succs x)
    (ho : o ∈ s.elements.objectsOf x) : o ∈ s.elements.objectsOf y ∨ s.Awaits y o := by
  refine (h.carries (x := x) hxy ho).imp_right ?_
  rintro ⟨_, _, he, hawaits⟩
  cases he
  exact hawaits

/-- An object of a variable pointer, as a judgement. -/
theorem read_pointsTo {x : PointerId} {c : ContextId} {v : VarId} {o : ObjCloneId}
    (hx : s.elements.pointer? x = some (.var c v)) (ho : o ∈ s.elements.objectsOf x) :
    ∃ t l, s.trail c = some t ∧ s.location o = some l ∧
      s.read (.pointsTo x o) = some (.pointsTo (.var t v) l) := by
  obtain ⟨J, hread, -⟩ := h.derivable (f := .pointsTo x o) (.inl ho)
  obtain ⟨a, l, ha, hl, rfl⟩ := State.read_pointsTo_eq.1 hread
  obtain ⟨r, hr, hra⟩ := State.slot_eq_some_iff.1 ha
  cases hx.symm.trans hr
  obtain ⟨t, ht, rfl⟩ := Option.map_eq_some_iff.1 hra
  exact ⟨t, l, ht, hl, hread⟩

theorem opens (hl : p.Layout) {x : PointerId} {c : ContextId} {v : VarId} {o : ObjCloneId}
    (hx : s.elements.pointer? x = some (.var c v)) (ho : o ∈ s.elements.objectsOf x) {site : StmtId}
    {i : Instr} (hi : p.instr site = .ok i) : s.Opens c v o i := by
  obtain ⟨t, l, ht, hloc, hread⟩ := h.read_pointsTo hx ho
  have hknows : ∀ {m J}, p.Contains m site i → PerObject p σ t m site l v i J → s.Knows J :=
    fun hm hJ => h.knows (f := .pointsTo x o) ho hread (.perObject hm hJ)
  cases i with
  | storeField access rhs =>
    cases access with
    | static f => trivial
    | «instance» b f =>
      rintro rfl
      obtain ⟨m, hm⟩ := hl.contains hi rfl
      exact (hknows hm .store).hasFlow (State.slotOf_var ht rhs) (State.slotOf_instanceField hloc f)
  | loadField lhs access =>
    cases access with
    | static f => trivial
    | «instance» b f =>
      rintro rfl
      obtain ⟨m, hm⟩ := hl.contains hi rfl
      exact (hknows hm .load).hasFlow (State.slotOf_instanceField hloc f) (State.slotOf_var ht lhs)
  | storeArray access rhs =>
    rintro rfl
    obtain ⟨m, hm⟩ := hl.contains hi rfl
    exact (hknows hm .storeElement).hasFlow (State.slotOf_var ht rhs)
      (State.slotOf_arrayElement hloc)
  | loadArray lhs access =>
    rintro rfl
    obtain ⟨m, hm⟩ := hl.contains hi rfl
    exact (hknows hm .loadElement).hasFlow (State.slotOf_arrayElement hloc)
      (State.slotOf_var ht lhs)
  | _ => trivial

theorem dispatches {x : PointerId} {c : ContextId} {v : VarId} {o : ObjCloneId}
    (hx : s.elements.pointer? x = some (.var c v)) (ho : o ∈ s.elements.objectsOf x) {m : MethodId}
    {site : StmtId} {call : Call} (hm : p.Contains m site (.invoke call))
    (hr : call.receiver = some v) : s.Dispatches p σ c o site m call := by
  obtain ⟨t, l, ht, hloc, hread⟩ := h.read_pointsTo hx ho
  obtain ⟨clone, obj, hclone, hobj, htrail, hsite⟩ := State.location_eq_some_iff.1 hloc
  obtain ⟨y, hy, hmarks⟩ := State.trail_eq_some_iff.1 ht
  obtain ⟨z, hz, hmarks'⟩ := State.trail_eq_some_iff.1 htrail
  have halloc := h.allocates hobj
  have hknows : ∀ {J}, PerObject p σ t m site l v (.invoke call) J → s.Knows J :=
    fun hJ => h.knows (f := .pointsTo x o) ho hread (.perObject hm hJ)
  refine ⟨clone, obj, y, z, hclone, hobj, hy, hz, fun callee hcallee => ?_⟩
  obtain ⟨c', hc', ht', hcall⟩ := (hknows (.invoke hr halloc hsite hcallee)).hasCall ht
    (State.marks_instanceContext hmarks hmarks' hobj hsite site)
  refine ⟨c', hc', hcall, fun d this hd hthis => ?_⟩
  exact (hknows (.receiver hr halloc hsite hcallee hd hthis)).holds (State.slotOf_var ht' this) hloc

theorem performs (hl : p.Layout) {n : MethodCloneId} (hn : n ∈ s.calls.reachable.toList)
    {clone : MethodClone} {d : MethodDecl} {x : Context} {t : Trail}
    (hclone : s.elements.methods.get? n = some clone) (hd : p.method clone.method = .ok d)
    (ht : s.trail clone.context = some t) (hx : s.elements.contexts.get? clone.context = some x)
    {site : StmtId} (hsite : site ∈ d.body) {i : Instr} (hi : p.instr site = .ok i) :
    s.Performs p σ clone d.owner x site i := by
  have hread : s.read (.reachable n) = some (.reachable t clone.method) :=
    State.read_reachable_eq.2 ⟨clone, t, hclone, ht, rfl⟩
  obtain ⟨x', hx', hmarks⟩ := State.trail_eq_some_iff.1 ht
  cases hx.symm.trans hx'
  have hknows : ∀ {J}, Immediate p σ t clone.method site i J → s.Knows J :=
    fun hJ => h.knows (f := .reachable n) hn hread (.immediate ⟨d, hd, hsite, hi⟩ hJ)
  have hvar := State.slotOf_var ht
  cases i with
  | new lhs ty =>
    obtain ⟨f, hf, hread⟩ := hknows .new
    obtain ⟨y, o, rfl, hy, ho⟩ := State.of_read_pointsTo hread
    obtain ⟨⟨c', obj⟩, rec, hobject, hrec, htrail, hs⟩ := State.location_eq_some_iff.1 ho
    have halloc : p.Allocates ⟨site, ty, clone.method, d.owner⟩ := ⟨d, lhs, hd, rfl, hsite, hi⟩
    cases (h.allocates hrec).unique hl halloc hs
    exact ⟨o, c', obj, hobject, hrec,
      State.contexts_of_trail htrail (State.marks_heapContext hmarks),
      State.Knows.holds ⟨_, hf, hread⟩ (hvar lhs) ho⟩
  | copy lhs rhs => exact (hknows .copy).hasFlow (hvar rhs) (hvar lhs)
  | cast lhs operand ty => exact (hknows .cast).hasFlow (hvar operand) (hvar lhs)
  | loadField lhs access =>
    cases access with
    | static f => exact (hknows .load).hasFlow rfl (hvar lhs)
    | «instance» b f => trivial
  | storeField access rhs =>
    cases access with
    | static f => exact (hknows .store).hasFlow (hvar rhs) rfl
    | «instance» b f => trivial
  | invoke call =>
    intro hkind callee hcallee
    obtain ⟨c', hc', -, hcall⟩ := (hknows (.invoke hkind hcallee)).hasCall ht
      (State.marks_staticContext hmarks site)
    exact ⟨c', hc', hcall⟩
  | _ => trivial

/-! The clones of recorded calls are reachable. -/

theorem reachable_of_isMain {n : MethodCloneId} (hn : s.IsMain p n) :
    n ∈ s.calls.reachable.toList := by
  obtain ⟨clone, hclone, hc, hmain⟩ := hn
  have htrail : s.trail clone.context = some [] := State.trail_eq_some_iff.2 ⟨_, hc, rfl⟩
  exact ((h.main hmain).resolve_right (Set.notMem_empty _)).reachable
    (State.read_reachable_eq.2 ⟨clone, [], hclone, htrail, rfl⟩)

theorem reachable_of_rooted {due : Set MethodClone} (ha : s.Anchored p σ due) {n : MethodCloneId}
    (hn : s.Rooted n) : n ∈ s.calls.reachable.toList := by
  obtain ⟨first, hfirst, path, hp⟩ := hn
  cases hp with
  | refl => exact h.reachable_of_isMain (ha.entries hfirst)
  | call _ he _ => exact h.callee_reachable he

end Balanced

theorem Derivable.call_kind {i : Invocation} (h : Derivable p σ (.call i)) :
    ∃ call, p.Contains i.caller i.site (.invoke call) ∧ call.kind = i.kind := by
  cases h with
  | immediate _ hs h =>
    cases h
    exact ⟨_, hs, rfl⟩
  | perObject _ hs _ h =>
    cases h
    exact ⟨_, hs, rfl⟩
  | linked _ h => cases h

theorem Balanced.links {due : Set MethodClone} (h : Balanced p σ (Derivable p σ) s ∅)
    (ha : s.Anchored p σ due) (hv : s.VettedBut p none) {e : CallEdge}
    (he : e ∈ s.calls.edges.toList) : s.Links p e := by
  obtain ⟨J, hread, hJ⟩ := h.derivable (f := .call e) (.inl he)
  obtain ⟨i, hi, rfl⟩ := State.read_call_eq.1 hread
  obtain ⟨call, hcall, hkind⟩ := hJ.call_kind
  obtain ⟨site, caller, callee, hsite, hcaller, hcallee, hcontext, ht, ht', hk, hs, hm, hm'⟩ :=
    State.invocation_eq_some_iff.1 hi
  have hreached := h.callee_reachable he
  obtain ⟨clone, d, hclone, hd, -⟩ := (hv _ hreached).resolve_left nofun
  cases hcallee.symm.trans hclone
  obtain ⟨site', hsite', hrooted⟩ := ha.callers he
  cases hsite.symm.trans hsite'
  obtain ⟨-, -, -, hinstr⟩ := id hcall
  have hd' : p.method i.callee = .ok d := hm' ▸ hd
  have hknows : ∀ {J}, Linked p i J → s.Knows J := fun hJ =>
    h.knows (f := .call e) he hread (.linked hJ)
  refine ⟨site, caller, callee, call, d, hsite, hcaller, hcontext, hcallee, ?_,
    hkind.trans hk.symm, hd, h.reachable_of_rooted ha hrooted, hreached, ?_, ?_⟩
  · rw [hm, hs]
    exact hcall
  · rintro ⟨arg, param⟩ hmem
    exact (hknows (.argument hinstr hd' hmem)).hasFlow (State.slotOf_var ht arg)
      (State.slotOf_var ht' param)
  · intro lhs hlhs v hv
    exact (hknows (.result hinstr hd' hlhs hv)).hasFlow (State.slotOf_var ht' v)
      (State.slotOf_var ht lhs)

/-! ## The states between two steps -/

namespace Stepped

theorem served (h : Stepped p σ s) : Served p σ (· = .ok ()) s := by
  induction h with
  | start h => exact .next .start .initial h rfl
  | step _ h ih =>
    refine .next .step ih ?_ rfl
    simp only [Request.serve, ExceptT.run_bind]
    simp only [bind, StateT.bind]
    rw [h]
    rfl

theorem balanced (hl : p.Layout) (hD : Saturated p σ D) (h : Stepped p σ s) :
    Balanced p σ D s ∅ := by
  induction h with
  | start h => exact start_initial hl hD _ _ h
  | step _ h ih => exact (ih.step hl hD _ _ h).2.1

/-- Nothing is lost in the states that successful steps come to, and a further one takes nothing
back. -/
theorem accounts (hb : p.Built) (hs : p.Scoped) (h : Stepped p σ s) :
    s.Accounts p σ ∧ ∀ more s', (PointsTo.step p σ).run s = (.ok more, s') → s.Extends s' := by
  have hl := hb.layout
  have hD : Saturated p σ (Derivable p σ) := Derivable.saturated hl hs
  have hbalanced := h.balanced hl hD
  have hanchored := h.served.anchored hl hs
  have hvetted := h.served.vetted
  refine ⟨⟨hbalanced.flows, fun hx ho site i hi => hbalanced.opens hl hx ho hi,
    fun hx ho m site call hm hr => hbalanced.dispatches hx ho hm hr,
    fun he => hbalanced.links hanchored hvetted he, fun {n} hn => ?_⟩,
    fun more s' hrun => (hbalanced.step hl hD _ _ hrun).1⟩
  obtain ⟨clone, d, hclone, hd, -⟩ := (hvetted n hn).resolve_left nofun
  obtain ⟨J, hread, -⟩ := hbalanced.derivable (f := .reachable n) (.inl hn)
  obtain ⟨clone', t, hclone', ht, -⟩ := State.read_reachable_eq.1 hread
  cases hclone.symm.trans hclone'
  obtain ⟨x, hx, -⟩ := State.trail_eq_some_iff.1 ht
  exact ⟨clone, d, x, hclone, hd, hx, fun site hsite i hi =>
    hbalanced.performs hl hn hclone hd ht hx hsite hi⟩

/-- While the receiver of the call in the sample is on its way, nothing is lost. -/
theorem accounts_sample : ∃ s s',
    (PointsTo.start Program.sample (.object 1)).run .initial = (.ok (), s) ∧
    (PointsTo.step Program.sample (.object 1)).run s = (.ok true, s') ∧
    s'.pending.toList.length = 1 ∧ s'.Accounts Program.sample (.object 1) := by
  obtain ⟨s, s', hstart, hstep, hpending⟩ : ∃ s s',
      (PointsTo.start Program.sample (.object 1)).run .initial = (.ok (), s) ∧
      (PointsTo.step Program.sample (.object 1)).run s = (.ok true, s') ∧
      s'.pending.toList.length = 1 :=
    ⟨_, _, SolverM.run_eq (by decide +kernel), SolverM.run_eq (by decide +kernel),
      by decide +kernel⟩
  have haccounts := accounts Program.sample_built Program.sample_scoped
    (.step (.start hstart) hstep)
  exact ⟨s, s', hstart, hstep, hpending, haccounts.1⟩

end Stepped

end ProgramFlow.PointsTo
