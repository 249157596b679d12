import ProgramFlow.Proofs.PointsTo.Balance
/-!
Every number that a points-to analysis keeps names something. This holds for any program: what the
analysis does not find in the program makes it fail, and what it numbers it has numbered the parts
of before.
-/
namespace ProgramFlow.PointsTo

namespace State

section

variable (s : State)

def HasContext (c : ContextId) : Prop := ∃ x, s.elements.contexts.get? c = some x

def HasObject (o : ObjCloneId) : Prop := ∃ clone, s.elements.objects.get? o = some clone

def HasMethod (n : MethodCloneId) : Prop := ∃ clone, s.elements.methods.get? n = some clone

def HasCallSite (k : CallCloneId) : Prop := ∃ site, s.elements.callSites.get? k = some site

/-- What the pointer speaks of has a number. -/
def HasParts : Pointer → Prop
  | .var c _ => s.HasContext c
  | .staticField _ => True
  | .instanceField o _ | .arrayElement o => s.HasObject o

end

/-- What the tables, the call graph and the sets of objects refer to is in the tables. -/
structure Resolved (s : State) : Prop where
  inStep : s.elements.pointers.InStep
  objects : ∀ {o clone}, s.elements.objects.get? o = some clone → s.HasContext clone.context
  methods : ∀ {n clone}, s.elements.methods.get? n = some clone → s.HasContext clone.context
  callSites : ∀ {k site}, s.elements.callSites.get? k = some site →
    s.HasContext site.context ∧ s.HasMethod site.container
  pointers : ∀ {x r}, s.elements.pointer? x = some r → s.HasParts r
  sets : ∀ {x o}, s.Promises (.pointsTo x o) → s.HasObject o
  edges : ∀ {e}, e ∈ s.calls.edges.toList → s.HasCallSite e.site ∧ s.HasMethod e.callee
  reachable : ∀ {n}, n ∈ s.calls.reachable.toList → s.HasMethod n
  entries : ∀ {n}, n ∈ s.calls.entries.toList → s.HasMethod n

end State

/-- Numbers have kept what they were given for, and all of them are resolved. -/
structure Enlarges (s s' : State) : Prop where
  elements : s.elements.Extends s'.elements
  resolved : s'.Resolved

/-- Setting the objects of a pointer adds no others. -/
theorem Elements.mem_objectsOf_setObjects {e : Elements} {x y : PointerId} {objs : ObjSet}
    {o : ObjCloneId} (h : o ∈ (e.setObjects x objs).objectsOf y) :
    o ∈ e.objectsOf y ∨ o ∈ objs := by
  by_cases hx : x.index < e.pointers.sets.size
  · rw [objectsOf_setObjects _ hx] at h
    split at h
    · exact .inr h
    · exact .inl h
  · -- A number without a set leaves the sets alone.
    have hsame : e.setObjects x objs = e := by
      rw [setObjects, PointerTable.setObjects,
        Array.setIfInBounds_eq_of_size_le (Nat.le_of_not_lt hx)]
    exact .inl (hsame ▸ h)

variable {p : Program} {σ : Sensitivity} {s s' s'' : State} {c c' : ContextId} {o : ObjCloneId}
  {n : MethodCloneId} {k : CallCloneId} {r q : Pointer} {v : VarId} {site : StmtId} {call : Call}

namespace Elements.Extends

variable (h : s.elements.Extends s'.elements)
include h

theorem hasContext (hc : s.HasContext c) : s'.HasContext c := hc.imp fun _ => h.contexts

theorem hasObject (ho : s.HasObject o) : s'.HasObject o := ho.imp fun _ => h.objects

theorem hasMethod (hn : s.HasMethod n) : s'.HasMethod n := hn.imp fun _ => h.methods

theorem hasCallSite (hk : s.HasCallSite k) : s'.HasCallSite k := hk.imp fun _ => h.callSites

theorem hasParts (hr : s.HasParts r) : s'.HasParts r := by
  cases r with
  | var => exact h.hasContext hr
  | staticField => trivial
  | instanceField => exact h.hasObject hr
  | arrayElement => exact h.hasObject hr

end Elements.Extends

theorem Enlarges.trans (h : Enlarges s s') (h' : Enlarges s' s'') : Enlarges s s'' :=
  ⟨h.elements.trans h'.elements, h'.resolved⟩

theorem State.resolved_initial : State.initial.Resolved where
  inStep := PointerTable.inStep_empty
  objects := nofun
  methods := nofun
  callSites := nofun
  pointers := nofun
  sets h := absurd h (by
    rintro (h | ⟨_, _, -, _, h, -⟩)
    · cases h
    · cases h)
  edges := nofun
  reachable := nofun
  entries := nofun

namespace State.Resolved

theorem enlarges (h : s.Resolved) : Enlarges s s := ⟨.refl _, h⟩

/-- A step after which what is new speaks of what is known. -/
theorem evolve (h : s.Resolved) (hx : s.elements.Extends s'.elements)
    (hobjects : ∀ o clone, s'.elements.objects.get? o = some clone →
      s.elements.objects.get? o = some clone ∨ s.HasContext clone.context)
    (hmethods : ∀ n clone, s'.elements.methods.get? n = some clone →
      s.elements.methods.get? n = some clone ∨ s.HasContext clone.context)
    (hsites : ∀ k site, s'.elements.callSites.get? k = some site →
      s.elements.callSites.get? k = some site ∨
        s.HasContext site.context ∧ s.HasMethod site.container)
    (hpointers : ∀ x r, s'.elements.pointer? x = some r →
      s.elements.pointer? x = some r ∨ s.HasParts r)
    (hsets : ∀ x o, s'.Promises (.pointsTo x o) → s.HasObject o)
    (hcalls : s'.calls = s.calls) : Enlarges s s' where
  elements := hx
  resolved := {
    inStep := hx.inStep h.inStep
    objects := fun ho => hx.hasContext ((hobjects _ _ ho).elim h.objects id)
    methods := fun hn => hx.hasContext ((hmethods _ _ hn).elim h.methods id)
    callSites := fun hk => ((hsites _ _ hk).elim h.callSites id).imp hx.hasContext hx.hasMethod
    pointers := fun hr => hx.hasParts ((hpointers _ _ hr).elim h.pointers id)
    sets := fun ho => hx.hasObject (hsets _ _ ho)
    edges := fun he => (h.edges (hcalls ▸ he)).imp hx.hasCallSite hx.hasMethod
    reachable := fun hn => hx.hasMethod (h.reachable (hcalls ▸ hn))
    entries := fun hn => hx.hasMethod (h.entries (hcalls ▸ hn)) }

/-- A step that numbers nothing and leaves the call graph alone. -/
theorem quiet (h : s.Resolved) (he : s'.elements = s.elements) (hc : s'.calls = s.calls)
    (hsets : ∀ x o, s'.Promises (.pointsTo x o) → s.HasObject o) : Enlarges s s' :=
  h.evolve (he ▸ .refl _) (fun _ _ ho => .inl (he ▸ ho)) (fun _ _ hn => .inl (he ▸ hn))
    (fun _ _ hk => .inl (he ▸ hk)) (fun _ _ hr => .inl (he ▸ hr)) hsets hc

/-! ## Elementary steps -/

theorem contextId (h : s.Resolved) (x : Context) :
    (SolverM.contextId x).Ensures s fun c s' => Enlarges s s' ∧ s'.HasContext c := by
  obtain ⟨y, hid, -⟩ := s.elements.contexts.get?_ensure_self x
  exact .modifyGet ⟨h.evolve (.context s.elements x) (fun _ _ => .inl) (fun _ _ => .inl)
    (fun _ _ => .inl) (fun _ _ => .inl) (fun _ _ => h.sets) rfl, y, hid⟩

theorem objectId (h : s.Resolved) {clone : ObjClone} (hc : s.HasContext clone.context) :
    (SolverM.objectId clone).Ensures s fun o s' => Enlarges s s' ∧ s'.HasObject o := by
  obtain ⟨y, hid, -⟩ := s.elements.objects.get?_ensure_self clone
  refine .modifyGet ⟨h.evolve (.object s.elements clone) (fun o y ho => ?_) (fun _ _ => .inl)
    (fun _ _ => .inl) (fun _ _ => .inl) (fun _ _ => h.sets) rfl, y, hid⟩
  exact (Numbering.of_get?_ensure ho).imp_right fun ⟨_, hy⟩ => hy ▸ hc

theorem methodId (h : s.Resolved) {x : MethodClone} (hc : s.HasContext x.context) :
    (SolverM.methodId x).Ensures s fun n s' => Enlarges s s' ∧ s'.HasMethod n := by
  obtain ⟨y, hid, -⟩ := s.elements.methods.get?_ensure_self x
  refine .modifyGet ⟨h.evolve (.method s.elements x) (fun _ _ => .inl) (fun n y hn => ?_)
    (fun _ _ => .inl) (fun _ _ => .inl) (fun _ _ => h.sets) rfl, y, hid⟩
  exact (Numbering.of_get?_ensure hn).imp_right fun ⟨_, hy⟩ => hy ▸ hc

theorem callSiteId (h : s.Resolved) (hc : s.HasContext c) (hn : s.HasMethod n) :
    (SolverM.callSiteId ⟨c, site, n⟩).Ensures s fun k s' => Enlarges s s' ∧ s'.HasCallSite k := by
  obtain ⟨y, hid, -⟩ := s.elements.callSites.get?_ensure_self ⟨c, site, n⟩
  refine .modifyGet ⟨h.evolve (.callSite s.elements _) (fun _ _ => .inl) (fun _ _ => .inl)
    (fun k y hk => ?_) (fun _ _ => .inl) (fun _ _ => h.sets) rfl, y, hid⟩
  exact (Numbering.of_get?_ensure hk).imp_right fun ⟨_, hy⟩ => hy ▸ ⟨hc, hn⟩

theorem pointerId (h : s.Resolved) (hr : s.HasParts r) :
    (SolverM.pointerId r).Ensures s fun _ s' => Enlarges s s' := by
  refine .modifyGet (h.evolve (.pointer s.elements r) (fun _ _ => .inl) (fun _ _ => .inl)
    (fun _ _ => .inl) (fun x r' hx => ?_) (fun x o ho => h.sets (x := x) ?_) rfl)
  · rcases Numbering.of_get?_ensure hx with hx | ⟨-, rfl⟩
    · exact .inl hx
    · exact .inr hr
  · refine ho.imp_left fun ho => ?_
    rwa [State.Records, s.elements.objectsOf_pointer r x] at ho

theorem addFlow (h : s.Resolved) (x y : PointerId) : Enlarges s (s.addFlow x y) := by
  refine h.quiet State.elements_addFlow (State.calls_addFlow ..) fun z o ho => ?_
  cases hedge : s.flow.hasEdge x y with
  | true => exact h.sets (State.addFlow_of_hasEdge hedge ▸ ho)
  | false =>
    rcases (State.promises_addFlow hedge).1 ho with ho | ho | ⟨o', ho', he⟩
    · exact h.sets ho
    · cases ho
    · cases he
      exact h.sets (x := x) (.inl ho')

theorem flow (h : s.Resolved) (hr : s.HasParts r) (hq : s.HasParts q) :
    (SolverM.flow r q).Ensures s fun _ s' => Enlarges s s' := by
  refine .bind (h.pointerId hr) fun x s₁ h₁ => ?_
  refine .bind (h₁.resolved.pointerId (h₁.elements.hasParts hq)) fun y s₂ h₂ => ?_
  exact .modify (h₁.trans (h₂.trans (h₂.resolved.addFlow x y)))

theorem send (h : s.Resolved) (ho : s.HasObject o) (x : PointerId) :
    (SolverM.send x (.singleton o)).Ensures s fun _ s' => Enlarges s s' := by
  refine .modify (h.quiet rfl rfl fun y o' ho' => ?_)
  rcases State.promises_send.1 ho' with ho' | ⟨_, hmem, he⟩
  · exact h.sets ho'
  · cases he
    obtain rfl : o' = o := by simpa [SortedSet.singleton] using hmem
    exact ho

theorem countUnresolved (h : s.Resolved) :
    SolverM.countUnresolved.Ensures s fun _ s' => Enlarges s s' :=
  .modify (h.quiet rfl rfl fun _ _ => h.sets)

/-- A change of the call graph. -/
theorem record (h : s.Resolved) {calls : CallGraph}
    (hedges : ∀ e ∈ calls.edges.toList, e ∈ s.calls.edges.toList ∨
      s.HasCallSite e.site ∧ s.HasMethod e.callee)
    (hreachable : ∀ n ∈ calls.reachable.toList, n ∈ s.calls.reachable.toList ∨ s.HasMethod n)
    (hentries : ∀ n ∈ calls.entries.toList, n ∈ s.calls.entries.toList ∨ s.HasMethod n) :
    Enlarges s { s with calls } :=
  ⟨.refl _, { h with
    edges := fun he => (hedges _ he).elim h.edges id
    reachable := fun hn => (hreachable _ hn).elim h.reachable id
    entries := fun hn => (hentries _ hn).elim h.entries id }⟩

theorem addEdge (h : s.Resolved) {e : CallEdge} (hs : s.HasCallSite e.site)
    (hn : s.HasMethod e.callee) : Enlarges s { s with calls := s.calls.addEdge e } := by
  refine h.record (fun e' he' => ?_) (fun _ => .inl) fun _ => .inl
  rcases OrderedSet.mem_add.1 he' with rfl | he'
  · exact .inr ⟨hs, hn⟩
  · exact .inl he'

theorem addReachable (h : s.Resolved) (hn : s.HasMethod n) :
    Enlarges s { s with calls := s.calls.addReachable n } := by
  refine h.record (fun _ => .inl) (fun n' hn' => ?_) fun _ => .inl
  rcases OrderedSet.mem_add.1 hn' with rfl | hn'
  · exact .inr hn
  · exact .inl hn'

theorem addEntry (h : s.Resolved) (hn : s.HasMethod n) :
    Enlarges s { s with calls := s.calls.addEntry n } := by
  refine h.record (fun _ => .inl) (fun _ => .inl) fun n' hn' => ?_
  rcases OrderedSet.mem_add.1 hn' with rfl | hn'
  · exact .inr hn
  · exact .inl hn'

/-- The objects of an entry of the work list that are new to the pointer. -/
theorem absorb (h : s.Resolved) {x : PointerId} {objs new : ObjSet}
    {pending : Queue (PointerId × ObjSet)} {m : Nat}
    (hpop : s.pending.pop? = some ((x, objs), pending))
    (habsorb : State.absorb { s with pending, propagations := m } x objs = (new, s')) :
    Enlarges s s' ∧ ∀ o ∈ new, s'.HasObject o := by
  have hnew : ∀ o ∈ new, s.HasObject o := fun o ho =>
    h.sets (State.promises_of_pop? hpop ((State.mem_absorbed_iff habsorb).1 ho).1)
  have hsets : ∀ y o, s'.Promises (.pointsTo y o) → s.HasObject o := by
    rintro y o (ho | ⟨_, _, he, ho⟩)
    · rcases (State.absorb_cases habsorb).2 with ⟨-, rfl⟩ | ⟨-, rfl⟩
      · exact h.sets (x := y) (.inl ho)
      · rcases Elements.mem_objectsOf_setObjects ho with ho | ho
        · exact h.sets (x := y) (.inl ho)
        · rcases SortedSet.mem_union.1 ho with ho | ho
          · exact h.sets (x := x) (.inl ho)
          · exact hnew o ho
    · cases he
      rcases State.of_awaits_taken hpop habsorb ho with ho | ⟨-, ho⟩
      · exact h.sets (.inr ⟨y, o, rfl, ho⟩)
      · exact hnew o ho
  suffices hs : Enlarges s s' from ⟨hs, fun o ho => hs.elements.hasObject (hnew o ho)⟩
  rcases (State.absorb_cases habsorb).2 with ⟨-, rfl⟩ | ⟨-, rfl⟩
  · exact h.quiet rfl rfl hsets
  · exact h.evolve (.setObjects ..) (fun _ _ => .inl) (fun _ _ => .inl) (fun _ _ => .inl)
      (fun _ _ => .inl) hsets rfl

theorem forIn {α : Type} {l : List α} {f : α → PUnit → SolverM (ForInStep PUnit)} (h : s.Resolved)
    (hf : ∀ a ∈ l, ∀ s₁, Enlarges s s₁ →
      (f a ⟨⟩).Ensures s₁ fun r s₂ => r = .yield ⟨⟩ ∧ Enlarges s₁ s₂) :
    SolverM.Ensures (forIn l PUnit.unit f) s fun _ s' => Enlarges s s' := by
  refine .mono (.forIn (I := fun l' s' => (∀ a ∈ l', a ∈ l) ∧ Enlarges s s') ?_
    ⟨fun _ => id, h.enlarges⟩) fun _ _ h' => h'.2
  rintro a l' s₁ ⟨hl', h₁⟩
  rw [List.forall_mem_cons] at hl'
  refine (hf a hl'.1 s₁ h₁).mono ?_
  rintro _ s₂ ⟨rfl, h₂⟩
  exact ⟨rfl, hl'.2, h₁.trans h₂⟩

/-! ## The computations of the solver -/

theorem link (h : s.Resolved) (hc : s.HasContext c) (hc' : s.HasContext c') (call : Call)
    (d : MethodDecl) : (PointsTo.link c call c' d).Ensures s fun _ s' => Enlarges s s' := by
  unfold PointsTo.link
  refine .bind (h.forIn fun ⟨arg, param⟩ _ s₁ h₁ => .yield (h₁.resolved.flow
    (r := .var c arg) (q := .var c' param) (h₁.elements.hasContext hc)
    (h₁.elements.hasContext hc'))) fun _ s₁ h₁ => ?_
  split
  · next lhs _ =>
    refine .bind (h₁.resolved.pointerId (r := .var c lhs) (h₁.elements.hasContext hc))
      fun target s₂ h₂ => ?_
    have h₂ := h₁.trans h₂
    refine .bind (h₂.resolved.forIn fun v _ s₃ h₃ => .bind (h₃.resolved.pointerId (r := .var c' v)
      ((h₂.trans h₃).elements.hasContext hc')) fun source s₄ h₄ => ?_) fun _ s₃ h₃ => ?_
    · exact .yield (.modify (h₄.trans (h₄.resolved.addFlow source target)))
    · exact .pure (h₂.trans h₃)
  · exact .pure h₁

theorem addCall (h : s.Resolved) (hc : s.HasContext c) (hn : s.HasMethod n)
    (hc' : s.HasContext c') (site : StmtId) (call : Call) (callee : MethodId) :
    (PointsTo.addCall p c n site call c' callee).Ensures s fun _ s' => Enlarges s s' := by
  unfold PointsTo.addCall
  refine .bind (h.callSiteId hc hn) ?_
  rintro siteId s₁ ⟨h₁, hsite⟩
  refine .bind (h₁.resolved.methodId (x := ⟨c', callee⟩) (h₁.elements.hasContext hc')) ?_
  rintro calleeId s₂ ⟨h₂, hcallee⟩
  have h₁₂ := h₁.trans h₂
  refine .get_bind ?_
  split
  · exact .pure h₁₂
  · have h₃ := h₂.resolved.addEdge (e := ⟨call.kind, siteId, calleeId⟩)
      (h₂.elements.hasCallSite hsite) hcallee
    refine .modify_bind (.lift_bind fun d _ => ?_)
    generalize { s₂ with calls := s₂.calls.addEdge ⟨call.kind, siteId, calleeId⟩ } = s₃ at h₃ ⊢
    have h₃ := h₁₂.trans h₃
    refine .bind (h₃.resolved.link (h₃.elements.hasContext hc) (h₃.elements.hasContext hc') call d)
      fun _ s₄ h₄ => .pure (h₃.trans h₄)

theorem enterStmt {clone : MethodClone} (h : s.Resolved) (hn : s.HasMethod n)
    (hc : s.HasContext clone.context) (owner : ClassId) (site : StmtId) :
    (PointsTo.enterStmt p σ n clone owner site).Ensures s fun _ s' => Enlarges s s' := by
  have hflow : ∀ {r q}, s.HasParts r → s.HasParts q →
      SolverM.Ensures (do SolverM.flow r q; return none) s
        fun (_ : Option MethodCloneId) s' => Enlarges s s' :=
    fun hr hq => .bind (h.flow hr hq) fun _ _ h₁ => .pure h₁
  have hvar : ∀ v, s.HasParts (.var clone.context v) := fun _ => hc
  unfold PointsTo.enterStmt
  refine .lift_bind fun i _ => ?_
  cases i with
  | new lhs ty =>
    refine .bind (P := fun _ s' => Enlarges s s') (.modifyGet (h.quiet rfl rfl fun _ _ => h.sets))
      fun obj s₁ h₁ => ?_
    refine .context_bind fun x _ => .bind (h₁.resolved.contextId _) ?_
    rintro heapContext s₂ ⟨h₂, hheap⟩
    refine .bind (h₂.resolved.objectId hheap) ?_
    rintro object s₃ ⟨h₃, hobject⟩
    have h₃ := h₁.trans (h₂.trans h₃)
    refine .bind (h₃.resolved.pointerId (h₃.elements.hasParts (hvar lhs))) fun target s₄ h₄ => ?_
    refine .bind (h₄.resolved.send (h₄.elements.hasObject hobject) target) fun _ s₅ h₅ => ?_
    exact .pure (h₃.trans (h₄.trans h₅))
  | copy lhs rhs => exact hflow (hvar rhs) (hvar lhs)
  | cast lhs operand ty => exact hflow (hvar operand) (hvar lhs)
  | loadField lhs access =>
    cases access with
    | static f => exact hflow (r := .staticField f) trivial (hvar lhs)
    | «instance» b f => exact .pure h.enlarges
  | storeField access rhs =>
    cases access with
    | static f => exact hflow (q := .staticField f) (hvar rhs) trivial
    | «instance» b f => exact .pure h.enlarges
  | invoke call =>
    dsimp only
    split
    · exact .pure h.enlarges
    · refine .lift_bind fun callee _ => ?_
      cases callee with
      | none => exact .bind h.countUnresolved fun _ _ h₁ => .pure h₁
      | some callee =>
        refine .context_bind fun x _ => .bind (h.contextId _) ?_
        rintro c' s₁ ⟨h₁, hc'⟩
        exact (h₁.resolved.addCall (h₁.elements.hasContext hc) (h₁.elements.hasMethod hn) hc' site
          call callee).mono fun _ _ h₂ => h₁.trans h₂
  | unknown tag lhs reads =>
    cases lhs with
    | none => exact .pure h.enlarges
    | some v =>
      refine .lift_bind fun y _ => ?_
      dsimp only
      split
      · exact .throw_bind
      · exact .pure h.enlarges
  | _ => exact .pure h.enlarges

/-- A clone without a number is no method that could be entered. -/
theorem enterMethod (h : s.Resolved) (n : MethodCloneId) :
    (PointsTo.enterMethod p σ n).Ensures s fun _ s' => Enlarges s s' := by
  unfold PointsTo.enterMethod
  refine .get_bind ?_
  split
  · exact .pure h.enlarges
  · refine .modify_bind (.method_bind fun clone hclone => .lift_bind fun d _ => ?_)
    have hn : s.HasMethod n := ⟨clone, hclone⟩
    have h₁ := h.addReachable hn
    generalize { s with calls := s.calls.addReachable n } = s₁ at h₁ ⊢
    refine .filterMapM (r := []) (I := fun _ _ s' => Enlarges s s') (fun site _ _ s₂ h₂ => ?_) h₁
    exact (h₂.resolved.enterStmt (h₂.elements.hasMethod hn)
      (h₂.elements.hasContext (h.methods hclone)) d.owner site).mono fun _ _ h₃ => h₂.trans h₃

theorem reach (h : s.Resolved) (n : MethodCloneId) :
    (PointsTo.reach p σ n).Ensures s fun _ s' => Enlarges s s' := by
  intro _ s' hr
  simp only [PointsTo.reach, ExceptT.run_mk] at hr
  split at hr
  · next r hfin =>
    subst hr
    refine Progress.of_iterate hfin (P := fun r => Enlarges s r.2)
      (Q := fun r => r.1 = .ok () → Enlarges s r.2) (fun r hr => ?_) h.enlarges rfl
    obtain ⟨_ | ⟨n', stack⟩, s₁⟩ := r
    · exact fun _ => hr
    · simp only [PointsTo.reachStep]
      split
      · next hrun => exact hr.trans (hr.resolved.enterMethod n' _ _ hrun)
      · exact nofun
  · cases hr

theorem openAccesses (h : s.Resolved) (hc : s.HasContext c) (ho : s.HasObject o) (b : VarId) :
    (PointsTo.openAccesses p c b o).Ensures s fun _ s' => Enlarges s s' := by
  have hvar : ∀ {s₁}, Enlarges s s₁ → ∀ v, s₁.HasParts (.var c v) :=
    fun h₁ _ => h₁.elements.hasContext hc
  have hobj : ∀ {s₁}, Enlarges s s₁ → s₁.HasObject o := fun h₁ => h₁.elements.hasObject ho
  unfold PointsTo.openAccesses
  refine .lift_bind fun _ _ => ?_
  refine .bind (h.forIn fun ⟨_, f, rhs⟩ _ s₁ h₁ => .yield (h₁.resolved.flow
    (q := .instanceField o f) (hvar h₁ rhs) (hobj h₁))) fun _ s₁ h₁ => ?_
  refine .bind (h₁.resolved.forIn fun ⟨_, lhs, f⟩ _ s₂ h₂ => .yield (h₂.resolved.flow
    (r := .instanceField o f) (hobj (h₁.trans h₂)) (hvar (h₁.trans h₂) lhs))) fun _ s₂ h₂ => ?_
  have h₂ := h₁.trans h₂
  refine .bind (h₂.resolved.forIn fun ⟨_, rhs⟩ _ s₃ h₃ => .yield (h₃.resolved.flow
    (q := .arrayElement o) (hvar (h₂.trans h₃) rhs) (hobj (h₂.trans h₃)))) fun _ s₃ h₃ => ?_
  have h₃ := h₂.trans h₃
  refine .bind (h₃.resolved.forIn fun ⟨_, lhs⟩ _ s₄ h₄ => .yield (h₄.resolved.flow
    (r := .arrayElement o) (hobj (h₃.trans h₄)) (hvar (h₃.trans h₄) lhs))) fun _ s₄ h₄ => ?_
  exact .pure (h₃.trans h₄)

theorem passReceiver (h : s.Resolved) (hc : s.HasContext c) (ho : s.HasObject o) (d : MethodDecl) :
    (PointsTo.passReceiver c d o).Ensures s fun _ s' => Enlarges s s' := by
  unfold PointsTo.passReceiver
  split
  · next this _ =>
    refine .bind (h.pointerId (r := .var c this) hc) fun target s₁ h₁ => ?_
    exact (h₁.resolved.send (h₁.elements.hasObject ho) target).mono fun _ _ h₂ => h₁.trans h₂
  · exact .pure h.enlarges

theorem openCall (h : s.Resolved) (hc : s.HasContext c) (site : StmtId) (call : Call) :
    (PointsTo.openCall p σ c o site call).Ensures s fun _ s' => Enlarges s s' := by
  unfold PointsTo.openCall
  refine .object_bind fun clone hclone => .obj_bind fun obj _ => .lift_bind fun callee _ => ?_
  cases callee with
  | none => exact h.countUnresolved
  | some callee =>
    refine .context_bind fun x _ => .context_bind fun y _ => .bind (h.contextId _) ?_
    rintro c' s₁ ⟨h₁, hc'⟩
    refine .lift_bind fun d _ => ?_
    refine .bind (h₁.resolved.passReceiver hc' (h₁.elements.hasObject ⟨clone, hclone⟩) d)
      fun _ s₂ h₂ => .lift_bind fun stmt _ => ?_
    have hc₂ := (h₁.trans h₂).elements.hasContext hc
    refine .bind (h₂.resolved.methodId (x := ⟨c, stmt.method⟩) hc₂) ?_
    rintro caller s₃ ⟨h₃, hcaller⟩
    refine .bind (h₃.resolved.addCall (h₃.elements.hasContext hc₂) hcaller
      ((h₂.trans h₃).elements.hasContext hc') site call callee) fun reached s₄ h₄ => ?_
    have h₄ := h₁.trans (h₂.trans (h₃.trans h₄))
    cases reached with
    | none => exact .pure h₄
    | some n => exact (h₄.resolved.reach n).mono fun _ _ h₅ => h₄.trans h₅

theorem step (h : s.Resolved) :
    (PointsTo.step p σ).Ensures s fun _ s' => Enlarges s s' := by
  unfold PointsTo.step
  refine .get_bind ?_
  split
  · exact .pure h.enlarges
  · next x objs pending hpop =>
    refine .modify_bind (.bind (P := fun new s' => Enlarges s s' ∧ ∀ o ∈ new, s'.HasObject o)
      (.modifyGet (h.absorb hpop rfl)) ?_)
    rintro new s₁ ⟨h₁, hnew⟩
    split
    · exact .pure h₁
    · refine .get_bind (.lift_bind fun pointer hpointer => ?_)
      have hparts := h₁.resolved.pointers (fetch_eq_ok_iff.1 hpointer)
      split
      · next c v =>
        refine .bind (h₁.resolved.forIn fun o ho s₂ h₂ => ?_) fun _ s₂ h₂ => .pure (h₁.trans h₂)
        have hc := h₂.elements.hasContext hparts
        refine .bind (h₂.resolved.openAccesses hc (h₂.elements.hasObject
          (hnew o (SortedSet.mem_toList.1 ho))) v) fun _ s₃ h₃ => ?_
        refine .yield ((h₃.resolved.forIn fun x _ s₄ h₄ => .yield ?_).mono fun _ _ h₄ =>
          h₃.trans h₄)
        exact h₄.resolved.openCall ((h₃.trans h₄).elements.hasContext hc) x.1 x.2
      · exact .pure h₁

theorem start (h : s.Resolved) :
    (PointsTo.start p σ).Ensures s fun _ s' => Enlarges s s' := by
  unfold PointsTo.start
  refine .get_bind ?_
  split
  · exact .pure h.enlarges
  · refine .lift_bind fun m _ => .bind (h.contextId _) ?_
    rintro c s₁ ⟨h₁, hc⟩
    refine .bind (h₁.resolved.methodId (x := ⟨c, m⟩) hc) ?_
    rintro n s₂ ⟨h₂, hn⟩
    have h₃ := h₂.resolved.addEntry hn
    refine .modify_bind (.bind (h₃.resolved.reach n) fun _ s₄ h₄ => .modify ?_)
    exact h₁.trans (h₂.trans (h₃.trans (h₄.trans (h₄.resolved.quiet rfl rfl fun _ _ =>
      h₄.resolved.sets))))

theorem solve (h : s.Resolved) :
    (PointsTo.solve p σ).Ensures s fun _ s' => s'.Resolved := by
  refine .bind h.start fun _ s₁ h₁ => .repeatWhile (I := State.Resolved) (fun s₂ h₂ => ?_)
    h₁.resolved
  refine h₂.step.mono fun more s₃ h₃ => ?_
  split
  · exact h₃.resolved
  · exact h₃.resolved

end State.Resolved

end ProgramFlow.PointsTo
