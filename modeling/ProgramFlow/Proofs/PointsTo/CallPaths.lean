import ProgramFlow.Proofs.PointsTo.Contexts
import ProgramFlow.Proofs.PointsTo.Projection
import ProgramFlow.Proofs.PointsTo.Termination
/-!
Where the method clones of a points-to analysis come from. Calls that are recorded lead from the
main method to every clone that is reachable, that calls or that has pointers, in all states of a
solver: between two steps and also after a request that failed.
-/
namespace ProgramFlow.PointsTo

namespace State

/-- Recorded calls at these sites lead from one clone to the other. -/
inductive CallPath (s : State) (first : MethodCloneId) : List StmtId → MethodCloneId → Prop
  | refl : CallPath s first [] first
  | call {path e site} (h : CallPath s first path site.container)
    (he : e ∈ s.calls.edges.toList) (hsite : s.elements.callSites.get? e.site = some site) :
    CallPath s first (path ++ [site.site]) e.callee

/-- Recorded calls lead from an entry to the clone. -/
def Rooted (s : State) (n : MethodCloneId) : Prop :=
  ∃ first ∈ s.calls.entries.toList, ∃ path, s.CallPath first path n

/-- The clone has a number and is rooted. -/
def Roots (s : State) (clone : MethodClone) : Prop :=
  ∃ n, s.elements.methods.get? n = some clone ∧ s.Rooted n

/-- A pointer of a variable belongs to a clone that is rooted, or to one that is due to be. -/
def Hosts (s : State) (p : Program) (due : Set MethodClone) : Pointer → Prop
  | .var c v => ∀ y, p.var v = .ok y → ⟨c, y.method⟩ ∈ due ∨ s.Roots ⟨c, y.method⟩
  | _ => True

/-- The clone is the main method in the empty context. -/
def IsMain (s : State) (p : Program) (n : MethodCloneId) : Prop :=
  ∃ clone, s.elements.methods.get? n = some clone ∧
    s.elements.contexts.get? clone.context = some .empty ∧ p.main = some clone.method

/-- Numbers keep what they were given for, and calls and entries are only added. -/
structure Widens (s s' : State) : Prop where
  elements : s.elements.Extends s'.elements
  entries : ∀ {n}, n ∈ s.calls.entries.toList → n ∈ s'.calls.entries.toList
  edges : ∀ {e}, e ∈ s.calls.edges.toList → e ∈ s'.calls.edges.toList

/-- The method clone that contains the call is rooted. -/
def Calls (s : State) (e : CallEdge) : Prop :=
  ∃ site, s.elements.callSites.get? e.site = some site ∧ s.Rooted site.container

/-- The contexts are those of the strategy, and what is reachable, calls or points to objects is
rooted. -/
structure Anchored (s : State) (p : Program) (σ : Sensitivity) (due : Set MethodClone) : Prop where
  contexts : ∀ {c x}, s.elements.contexts.get? c = some x → σ.Fits σ.depth x
  methods : ∀ {n clone}, s.elements.methods.get? n = some clone →
    ∃ x, s.elements.contexts.get? clone.context = some x
  objects : ∀ {o clone}, s.elements.objects.get? o = some clone →
    ∃ x, s.elements.contexts.get? clone.context = some x ∧ σ.Fits (σ.depth - 1) x
  entries : ∀ {n}, n ∈ s.calls.entries.toList → s.IsMain p n
  reachable : ∀ {n}, n ∈ s.calls.reachable.toList → s.Rooted n
  callers : ∀ {e}, e ∈ s.calls.edges.toList → s.Calls e
  pointers : ∀ {x r}, s.elements.pointer? x = some r → s.Hosts p due r

end State

/-- The state has grown and is anchored. -/
structure Grows (p : Program) (σ : Sensitivity) (due : Set MethodClone) (s s' : State) :
    Prop where
  widens : s.Widens s'
  anchored : s'.Anchored p σ due

/-- The state has grown, and the clones are rooted in it. -/
def Leads (p : Program) (σ : Sensitivity) (ns : List MethodCloneId) (s s' : State) : Prop :=
  Grows p σ ∅ s s' ∧ ∀ n ∈ ns, s'.Rooted n

/-- A failure leaves an anchored state. -/
def Kept (p : Program) (σ : Sensitivity) (_ : AnalysisError) (s : State) : Prop :=
  s.Anchored p σ ∅

variable {p : Program} {σ : Sensitivity} {s s' s'' : State} {due due' : Set MethodClone}
  {n : MethodCloneId} {clone : MethodClone} {c c' : ContextId} {v : VarId} {m : MethodId}
  {site : StmtId} {call : Call} {r r' : Pointer} {x : Context} {d : MethodDecl}
  {E : AnalysisError → State → Prop}

namespace State

namespace Widens

theorem refl (s : State) : s.Widens s := ⟨.refl _, id, id⟩

theorem trans (h : s.Widens s') (h' : s'.Widens s'') : s.Widens s'' :=
  ⟨h.elements.trans h'.elements, h'.entries ∘ h.entries, h'.edges ∘ h.edges⟩

theorem of_calls (he : s.elements.Extends s'.elements) (hc : s'.calls = s.calls) :
    s.Widens s' :=
  ⟨he, fun h => hc ▸ h, fun h => hc ▸ h⟩

section

variable (h : s.Widens s')
include h

theorem callPath {first : MethodCloneId} {path : List StmtId} (hp : s.CallPath first path n) :
    s'.CallPath first path n := by
  induction hp with
  | refl => exact .refl
  | call _ he hsite ih => exact .call ih (h.edges he) (h.elements.callSites hsite)

theorem rooted (hr : s.Rooted n) : s'.Rooted n := by
  obtain ⟨first, hfirst, path, hp⟩ := hr
  exact ⟨first, h.entries hfirst, path, h.callPath hp⟩

theorem roots (hr : s.Roots clone) : s'.Roots clone := by
  obtain ⟨n, hn, hr⟩ := hr
  exact ⟨n, h.elements.methods hn, h.rooted hr⟩

theorem calls {e : CallEdge} (he : s.Calls e) : s'.Calls e := by
  obtain ⟨site, hsite, hr⟩ := he
  exact ⟨site, h.elements.callSites hsite, h.rooted hr⟩

theorem hosts (hr : s.Hosts p due r) : s'.Hosts p due r := by
  cases r with
  | var c v => exact fun y hy => (hr y hy).imp_right h.roots
  | _ => trivial

theorem isMain (hm : s.IsMain p n) : s'.IsMain p n := by
  obtain ⟨clone, hn, hc, hm⟩ := hm
  exact ⟨clone, h.elements.methods hn, h.elements.contexts hc, hm⟩

end

end Widens

theorem Rooted.callee (hr : s.Rooted n) {e : CallEdge} (he : e ∈ s.calls.edges.toList)
    (hsite : s.elements.callSites.get? e.site = some ⟨c, site, n⟩) : s.Rooted e.callee := by
  obtain ⟨first, hfirst, path, hp⟩ := hr
  exact ⟨first, hfirst, _, .call hp he hsite⟩

theorem Hosts.mono (hr : s.Hosts p due r) (hdue : due ⊆ due') : s.Hosts p due' r := by
  cases r with
  | var c v => exact fun y hy => (hr y hy).imp_left (@hdue _)
  | _ => trivial

/-- A clone hosts the variables of its method. -/
theorem Roots.hosts (h : s.Roots ⟨c, m⟩) (hv : ∃ y, p.var v = .ok y ∧ y.method = m) :
    s.Hosts p due (.var c v) := by
  obtain ⟨y, hy, rfl⟩ := hv
  intro y' hy'
  cases hy.symm.trans hy'
  exact .inr h

end State

/-- The clone of a variable runs the statements that use the variable. -/
theorem State.Hosts.roots (h : s.Hosts p ∅ (.var c v)) (hl : p.Layout) (hs : p.Scoped) {i : Instr}
    (hi : p.Contains m site i) (hv : v ∈ i.uses) : s.Roots ⟨c, m⟩ := by
  obtain ⟨y, hy, rfl⟩ := hi.own hl hs (.inl hv)
  exact (h y hy).resolve_left (Set.notMem_empty _)

/-! ## Elementary steps -/

namespace Grows

theorem trans (h : Grows p σ due s s') (h' : Grows p σ due' s' s'') : Grows p σ due' s s'' :=
  ⟨h.widens.trans h'.widens, h'.anchored⟩

theorem leads_nil (h : Grows p σ ∅ s s') : Leads p σ [] s s' := ⟨h, nofun⟩

end Grows

theorem Leads.trans {ns ns' : List MethodCloneId} (h : Leads p σ ns s s')
    (h' : Leads p σ ns' s' s'') : Leads p σ (ns ++ ns') s s'' := by
  refine ⟨h.1.trans h'.1, fun n hn => ?_⟩
  rcases List.mem_append.1 hn with hn | hn
  · exact h'.1.widens.rooted (h.2 n hn)
  · exact h'.2 n hn

namespace State.Anchored

theorem grows (h : s.Anchored p σ due) : Grows p σ due s s := ⟨.refl s, h⟩

/-- A step whose new contexts fit and whose new clones, calls and pointers are rooted. -/
theorem evolve (h : s.Anchored p σ due) (hw : s.Widens s')
    (hcontexts : ∀ c x, s'.elements.contexts.get? c = some x →
      s.elements.contexts.get? c = some x ∨ σ.Fits σ.depth x)
    (hmethods : ∀ n clone, s'.elements.methods.get? n = some clone →
      s.elements.methods.get? n = some clone ∨
        ∃ x, s.elements.contexts.get? clone.context = some x)
    (hobjects : ∀ o clone, s'.elements.objects.get? o = some clone →
      s.elements.objects.get? o = some clone ∨
        ∃ x, s.elements.contexts.get? clone.context = some x ∧ σ.Fits (σ.depth - 1) x)
    (hentries : ∀ n ∈ s'.calls.entries.toList, n ∈ s.calls.entries.toList ∨ s.IsMain p n)
    (hreachable : ∀ n ∈ s'.calls.reachable.toList, n ∈ s.calls.reachable.toList ∨ s.Rooted n)
    (hcallers : ∀ e ∈ s'.calls.edges.toList, e ∈ s.calls.edges.toList ∨ s.Calls e)
    (hpointers : ∀ x r, s'.elements.pointer? x = some r →
      s.elements.pointer? x = some r ∨ s.Hosts p due r) : Grows p σ due s s' := by
  refine ⟨hw, fun hc => (hcontexts _ _ hc).elim h.contexts id, fun hn => ?_, fun ho => ?_,
    fun hn => hw.isMain ((hentries _ hn).elim h.entries id),
    fun hn => hw.rooted ((hreachable _ hn).elim h.reachable id),
    fun he => hw.calls ((hcallers _ he).elim h.callers id),
    fun hr => hw.hosts ((hpointers _ _ hr).elim h.pointers id)⟩
  · obtain ⟨x, hx⟩ := (hmethods _ _ hn).elim h.methods id
    exact ⟨x, hw.elements.contexts hx⟩
  · obtain ⟨x, hx, hfits⟩ := (hobjects _ _ ho).elim h.objects id
    exact ⟨x, hw.elements.contexts hx, hfits⟩

/-- A step that numbers nothing and leaves the call graph alone. -/
theorem quiet (h : s.Anchored p σ due) (he : s'.elements = s.elements)
    (hc : s'.calls = s.calls) : Grows p σ due s s' :=
  h.evolve (.of_calls (he ▸ .refl _) hc) (fun _ _ hx => .inl (he ▸ hx))
    (fun _ _ hn => .inl (he ▸ hn)) (fun _ _ ho => .inl (he ▸ ho)) (fun _ hn => .inl (hc ▸ hn))
    (fun _ hn => .inl (hc ▸ hn)) (fun _ he => .inl (hc ▸ he)) (fun _ _ hr => .inl (he ▸ hr))

theorem contextId (h : s.Anchored p σ due) (hx : σ.Fits σ.depth x) :
    (SolverM.contextId x).Attains s E fun c s' =>
      Grows p σ due s s' ∧ s'.elements.contexts.get? c = some x := by
  obtain ⟨y, hid, rfl⟩ := s.elements.contexts.get?_ensure_self x
  refine .modifyGet ⟨h.evolve (.of_calls (.context s.elements _) rfl) (fun c y hc => ?_)
    (fun _ _ => .inl) (fun _ _ => .inl) (fun _ => .inl) (fun _ => .inl) (fun _ => .inl)
    (fun _ _ => .inl), hid⟩
  exact (Numbering.of_get?_ensure hc).imp_right fun ⟨_, hy⟩ => hy ▸ hx

theorem methodId (h : s.Anchored p σ due) (clone : MethodClone)
    (hx : s.elements.contexts.get? clone.context = some x) :
    (SolverM.methodId clone).Attains s E fun n s' =>
      Grows p σ due s s' ∧ s'.elements.methods.get? n = some clone := by
  obtain ⟨y, hid, rfl⟩ := s.elements.methods.get?_ensure_self clone
  refine .modifyGet ⟨h.evolve (.of_calls (.method s.elements _) rfl) (fun _ _ => .inl)
    (fun n clone hn => ?_) (fun _ _ => .inl) (fun _ => .inl) (fun _ => .inl) (fun _ => .inl)
    (fun _ _ => .inl), hid⟩
  exact (Numbering.of_get?_ensure hn).imp_right fun ⟨_, hy⟩ => ⟨x, hy ▸ hx⟩

theorem objectId (h : s.Anchored p σ due) {o : ObjClone}
    (hx : s.elements.contexts.get? o.context = some x) (hfits : σ.Fits (σ.depth - 1) x) :
    (SolverM.objectId o).Attains s E fun _ s' => Grows p σ due s s' := by
  refine .modifyGet (h.evolve (.of_calls (.object s.elements o) rfl) (fun _ _ => .inl)
    (fun _ _ => .inl) (fun o clone ho => ?_) (fun _ => .inl) (fun _ => .inl) (fun _ => .inl)
    (fun _ _ => .inl))
  exact (Numbering.of_get?_ensure ho).imp_right fun ⟨_, hy⟩ => ⟨x, hy ▸ hx, hfits⟩

theorem callSiteId (h : s.Anchored p σ due) (i : CallClone) :
    (SolverM.callSiteId i).Attains s E fun id s' =>
      Grows p σ due s s' ∧ s'.elements.callSites.get? id = some i := by
  obtain ⟨y, hid, rfl⟩ := s.elements.callSites.get?_ensure_self i
  exact .modifyGet ⟨h.evolve (.of_calls (.callSite s.elements _) rfl) (fun _ _ => .inl)
    (fun _ _ => .inl) (fun _ _ => .inl) (fun _ => .inl) (fun _ => .inl) (fun _ => .inl)
    (fun _ _ => .inl), hid⟩

theorem pointerId (h : s.Anchored p σ due) (hr : s.Hosts p due r) :
    (SolverM.pointerId r).Attains s E fun _ s' => Grows p σ due s s' := by
  refine .modifyGet (h.evolve (.of_calls (.pointer s.elements r) rfl) (fun _ _ => .inl)
    (fun _ _ => .inl) (fun _ _ => .inl) (fun _ => .inl) (fun _ => .inl) (fun _ => .inl)
    (fun y r' hy => ?_))
  rcases Numbering.of_get?_ensure hy with hy | ⟨-, rfl⟩
  · exact .inl hy
  · exact .inr hr

theorem flow (h : s.Anchored p σ due) (hr : s.Hosts p due r) (hr' : s.Hosts p due r') :
    (SolverM.flow r r').Attains s E fun _ s' => Grows p σ due s s' := by
  refine .bind (h.pointerId hr) fun _ s₁ h₁ => ?_
  refine .bind (h₁.anchored.pointerId (h₁.widens.hosts hr')) fun _ s₂ h₂ => ?_
  exact .modify (h₁.trans (h₂.trans (h₂.anchored.quiet elements_addFlow (calls_addFlow ..))))

theorem countUnresolved (h : s.Anchored p σ due) :
    SolverM.countUnresolved.Attains s E fun _ s' => Grows p σ due s s' :=
  .modify (h.quiet rfl rfl)

theorem absorb (h : s.Anchored p σ due) (z : PointerId) (objs : ObjSet) :
    Grows p σ due s (s.absorb z objs).2 := by
  obtain ⟨new, s', habsorb⟩ : ∃ new s', s.absorb z objs = (new, s') := ⟨_, _, rfl⟩
  rw [habsorb]
  rcases (absorb_cases habsorb).2 with ⟨-, rfl⟩ | ⟨-, rfl⟩
  · exact h.grows
  · exact h.evolve (.of_calls (.setObjects ..) rfl) (fun _ _ => .inl) (fun _ _ => .inl)
      (fun _ _ => .inl) (fun _ => .inl) (fun _ => .inl) (fun _ => .inl) fun _ _ => .inl

theorem forIn {α : Type} {l : List α} {f : α → PUnit → SolverM (ForInStep PUnit)}
    (h : s.Anchored p σ due) (hf : ∀ a ∈ l, ∀ s₁, Grows p σ due s s₁ →
      (f a ⟨⟩).Attains s₁ E fun r s₂ => r = .yield ⟨⟩ ∧ Grows p σ due s₁ s₂) :
    SolverM.Attains (forIn l PUnit.unit f) s E fun _ s' => Grows p σ due s s' := by
  induction l generalizing s with
  | nil => exact .pure h.grows
  | cons a l ih =>
    rw [List.forIn_cons]
    refine .bind (hf a (.head _) s h.grows) ?_
    rintro _ s₁ ⟨rfl, h₁⟩
    refine (ih h₁.anchored fun a ha s₂ h₂ => hf a (.tail _ ha) s₂ (h₁.trans h₂)).mono ?_
    intro _ s₂ h₂
    exact h₁.trans h₂

theorem filterMapM {α : Type} {l : List α} {f : α → SolverM (Option MethodCloneId)}
    (h : s.Anchored p σ ∅) (hf : ∀ a ∈ l, ∀ s₁, Grows p σ ∅ s s₁ →
      (f a).Attains s₁ E fun o s₂ => Leads p σ o.toList s₁ s₂) :
    (l.filterMapM f).Attains s E fun ns s' => Leads p σ ns s s' := by
  induction l generalizing s with
  | nil => exact .pure h.grows.leads_nil
  | cons a l ih =>
    rw [List.filterMapM_cons]
    refine .bind (hf a (.head _) s h.grows) fun o s₁ h₁ => ?_
    have hrest := ih h₁.1.anchored fun a ha s₂ h₂ => hf a (.tail _ ha) s₂ (h₁.1.trans h₂)
    cases o with
    | none => exact hrest.mono fun ns s₂ h₂ => h₁.trans h₂
    | some n => exact .bind hrest fun ns s₂ h₂ => .pure (h₁.trans h₂)

/-- What was due has been rooted. -/
theorem settle (h : s.Anchored p σ due) (hdue : ∀ clone ∈ due, s.Roots clone) :
    s.Anchored p σ ∅ where
  contexts := h.contexts
  methods := h.methods
  objects := h.objects
  entries := h.entries
  reachable := h.reachable
  callers := h.callers
  pointers {y r} hr := by
    have hhosts := h.pointers hr
    cases r with
    | var c v => exact fun y hy => .inr ((hhosts y hy).elim (hdue _) id)
    | _ => trivial

theorem owe (h : s.Anchored p σ ∅) (due : Set MethodClone) : s.Anchored p σ due :=
  { h with pointers := fun hr => (h.pointers hr).mono (Set.empty_subset due) }

theorem addReachable (h : s.Anchored p σ due) (hn : s.Rooted n) :
    Grows p σ due s { s with calls := s.calls.addReachable n } := by
  refine h.evolve ⟨.refl _, id, id⟩ (fun _ _ => .inl) (fun _ _ => .inl) (fun _ _ => .inl)
    (fun _ => .inl) (fun n' hn' => ?_) (fun _ => .inl) (fun _ _ => .inl)
  rcases OrderedSet.mem_add.1 hn' with rfl | hn'
  · exact .inr hn
  · exact .inl hn'

theorem addEntry (h : s.Anchored p σ ∅) (hn : s.IsMain p n) :
    Leads p σ [n] s { s with calls := s.calls.addEntry n } := by
  refine ⟨h.evolve ⟨.refl _, fun he => OrderedSet.mem_add.2 (.inr he), id⟩ (fun _ _ => .inl)
    (fun _ _ => .inl) (fun _ _ => .inl) (fun n' hn' => ?_) (fun _ => .inl) (fun _ => .inl)
    (fun _ _ => .inl), ?_⟩
  · rcases OrderedSet.mem_add.1 hn' with rfl | hn'
    · exact .inr hn
    · exact .inl hn'
  · intro n' hn'
    obtain rfl := List.mem_singleton.1 hn'
    exact ⟨n', OrderedSet.mem_add.2 (.inl rfl), [], .refl⟩

theorem addEdge (h : s.Anchored p σ due) {e : CallEdge} (he : s.Calls e) :
    Grows p σ due s { s with calls := s.calls.addEdge e } := by
  refine h.evolve ⟨.refl _, id, fun he => OrderedSet.mem_add.2 (.inr he)⟩ (fun _ _ => .inl)
    (fun _ _ => .inl) (fun _ _ => .inl) (fun _ => .inl) (fun _ => .inl) (fun e' he' => ?_)
    (fun _ _ => .inl)
  rcases OrderedSet.mem_add.1 he' with rfl | he'
  · exact .inr he
  · exact .inl he'

/-! ## The computations of the solver -/

section

variable (hl : p.Layout) (hs : p.Scoped)
include hl hs

theorem link (h : s.Anchored p σ due) (hi : p.Contains m site (.invoke call))
    (hcaller : s.Roots ⟨c, m⟩) {callee : MethodId} (hd : p.method callee = .ok d)
    (hcallee : s.Roots ⟨c', callee⟩) :
    (PointsTo.link c call c' d).Attains s E fun _ s' => Grows p σ due s s' := by
  have hown : ∀ {v}, v ∈ (Instr.invoke call).uses ∨ (Instr.invoke call).assigned? = some v →
      s.Hosts p due (.var c v) := fun hv => hcaller.hosts (hi.own hl hs hv)
  have hreturns : ∀ v ∈ d.returns, s.Hosts p due (.var c' v) := by
    intro v hv
    obtain ⟨n, hn, hret⟩ := (hl.returns hd).1 hv
    have hi : p.Contains callee n (.ret (some v)) := ⟨d, hd, hn, hret⟩
    exact hcallee.hosts (hi.own hl hs (.inl (.head _)))
  unfold PointsTo.link
  refine .bind (h.forIn fun ⟨arg, param⟩ ha s₁ h₁ => .yield ?_) fun _ s₁ h₁ => ?_
  · have harg := hown (.inl (List.mem_append_right _ (List.of_mem_zip ha).1))
    have hparam : s.Hosts p due (.var c' param) :=
      hcallee.hosts (hl.params hd (List.of_mem_zip ha).2)
    exact h₁.anchored.flow (h₁.widens.hosts harg) (h₁.widens.hosts hparam)
  · split
    · next lhs hlhs =>
      refine .bind (h₁.anchored.pointerId (h₁.widens.hosts (hown (.inr hlhs)))) fun _ s₂ h₂ => ?_
      have h₂ := h₁.trans h₂
      refine .bind (h₂.anchored.forIn fun v hv s₃ h₃ => ?_) fun _ s₃ h₃ => .pure (h₂.trans h₃)
      have hv := (h₂.trans h₃).widens.hosts (hreturns v hv)
      refine .bind (h₃.anchored.pointerId hv) fun _ s₄ h₄ => .yield (.modify ?_)
      exact h₄.trans (h₄.anchored.quiet elements_addFlow (calls_addFlow ..))
    · exact .pure h₁

/-- The called clone is rooted by the edge, whether the edge is new or not. -/
theorem addCall {caller : MethodCloneId} {callee : MethodId}
    (h : s.Anchored p σ {⟨c', callee⟩}) (hi : p.Contains m site (.invoke call))
    (hcaller : s.elements.methods.get? caller = some ⟨c, m⟩) (hr : s.Rooted caller)
    (hx : s.elements.contexts.get? c' = some x) :
    (PointsTo.addCall p c caller site call c' callee).Attains s (Kept p σ) fun o s' =>
      Leads p σ o.toList s s' := by
  unfold PointsTo.addCall
  refine .bind (h.callSiteId _) ?_
  rintro siteId s₁ ⟨h₁, hsite⟩
  refine .bind (h₁.anchored.methodId _ (h₁.widens.elements.contexts hx)) ?_
  rintro calleeId s₂ ⟨h₂, hn⟩
  have h₁₂ := h₁.trans h₂
  have hedge : ∀ {s₃ : State}, s₂.Widens s₃ →
      ⟨call.kind, siteId, calleeId⟩ ∈ s₃.calls.edges.toList → s₃.Rooted calleeId := by
    intro s₃ hw he
    have hr := (h₁₂.widens.trans hw).rooted hr
    exact hr.callee he (hw.elements.callSites (h₂.widens.elements.callSites hsite))
  have hsettle : ∀ {s₃ : State}, Grows p σ {⟨c', callee⟩} s₂ s₃ → s₃.Rooted calleeId →
      s₃.Anchored p σ ∅ := by
    intro s₃ h₃ hcallee
    apply h₃.anchored.settle
    rintro _ rfl
    exact ⟨calleeId, h₃.widens.elements.methods hn, hcallee⟩
  refine .get_bind ?_
  split
  · next hold =>
    obtain ⟨_, hmem, rfl⟩ := Roster.contains_iff.1 hold
    have hcallee := hedge (.refl s₂) hmem
    exact .pure ⟨⟨h₁₂.widens, hsettle h₂.anchored.grows hcallee⟩, nofun⟩
  · have hcalls : s₂.Calls ⟨call.kind, siteId, calleeId⟩ :=
      ⟨_, h₂.widens.elements.callSites hsite, h₁₂.widens.rooted hr⟩
    have h₃ := h₂.anchored.addEdge hcalls
    have hcallee := hedge h₃.widens (OrderedSet.mem_add.2 (.inl rfl))
    have ha₃ := hsettle h₃ hcallee
    refine .modify_bind ?_
    generalize { s₂ with calls := s₂.calls.addEdge ⟨call.kind, siteId, calleeId⟩ } = s₃
      at h₃ hcallee ha₃ ⊢
    have hw := h₁₂.widens.trans h₃.widens
    refine .attempt_bind (fun _ => ha₃) fun d hd => ?_
    have hlink := ha₃.link (E := Kept p σ) hl hs hi
      ⟨caller, hw.elements.methods hcaller, hw.rooted hr⟩ hd
      ⟨calleeId, h₃.widens.elements.methods hn, hcallee⟩
    refine .bind hlink fun _ s₄ h₄ => .pure ⟨⟨hw.trans h₄.widens, h₄.anchored⟩, ?_⟩
    rintro _ hmem
    obtain rfl := List.mem_singleton.1 hmem
    exact h₄.widens.rooted hcallee

theorem enterStmt_new {self : MethodCloneId} {owner : ClassId} {lhs : VarId} {ty : Ty}
    (h : s.Anchored p σ ∅) (hi : p.Contains m site (.new lhs ty)) (hroots : s.Roots ⟨c, m⟩) :
    (PointsTo.enterStmt p σ self ⟨c, m⟩ owner site).Attains s (Kept p σ) fun o s' =>
      Leads p σ o.toList s s' := by
  have hlhs : s.Hosts p ∅ (.var c lhs) := hroots.hosts (hi.own hl hs (.inr rfl))
  obtain ⟨d, hd, hb, hinstr⟩ := hi
  unfold PointsTo.enterStmt
  refine .lift_bind hinstr ?_
  refine .bind (P := fun _ s' => Grows p σ ∅ s s') (.modifyGet (h.quiet rfl rfl))
    fun obj s₁ h₁ => ?_
  refine .attempt_bind (fun _ => h₁.anchored) fun x hx => ?_
  have hfits := (h₁.anchored.contexts (fetch_eq_ok_iff.1 hx)).heapContext
  refine .bind (h₁.anchored.contextId (hfits.mono (Nat.sub_le ..))) ?_
  rintro c' s₂ ⟨h₂, hc'⟩
  refine .bind (h₂.anchored.objectId hc' hfits) fun o s₃ h₃ => ?_
  have h₃ := h₁.trans (h₂.trans h₃)
  refine .bind (h₃.anchored.pointerId (h₃.widens.hosts hlhs)) fun target s₄ h₄ => ?_
  have h₅ : Grows p σ ∅ s₄ (s₄.send target (.singleton o)) := h₄.anchored.quiet rfl rfl
  exact .modify_bind (.pure (h₃.trans (h₄.trans h₅)).leads_nil)

theorem enterStmt_invoke {self : MethodCloneId} {owner : ClassId} (h : s.Anchored p σ ∅)
    (hi : p.Contains m site (.invoke call)) (hself : s.elements.methods.get? self = some ⟨c, m⟩)
    (hr : s.Rooted self) :
    (PointsTo.enterStmt p σ self ⟨c, m⟩ owner site).Attains s (Kept p σ) fun o s' =>
      Leads p σ o.toList s s' := by
  obtain ⟨d, hd, hb, hinstr⟩ := id hi
  unfold PointsTo.enterStmt
  refine .lift_bind hinstr ?_
  dsimp only
  split
  · exact .pure h.grows.leads_nil
  · refine .attempt_bind (fun _ => h) fun callee hcallee => ?_
    cases callee with
    | none => exact .bind h.countUnresolved fun _ _ h₁ => .pure h₁.leads_nil
    | some callee =>
      refine .attempt_bind (fun _ => h) fun x hx => ?_
      have hfits := (h.contexts (fetch_eq_ok_iff.1 hx)).staticContext site
      refine .bind (h.contextId hfits) ?_
      rintro c' s₁ ⟨h₁, hc'⟩
      have hcall := (h₁.anchored.owe {⟨c', callee⟩}).addCall hl hs hi
        (h₁.widens.elements.methods hself) (h₁.widens.rooted hr) hc'
      exact hcall.mono fun o s₂ h₂ => h₁.leads_nil.trans h₂

theorem enterStmt {self : MethodCloneId} {owner : ClassId} {i : Instr} (h : s.Anchored p σ ∅)
    (hi : p.Contains m site i) (hself : s.elements.methods.get? self = some ⟨c, m⟩)
    (hr : s.Rooted self) :
    (PointsTo.enterStmt p σ self ⟨c, m⟩ owner site).Attains s (Kept p σ) fun o s' =>
      Leads p σ o.toList s s' := by
  have hroots : s.Roots ⟨c, m⟩ := ⟨self, hself, hr⟩
  have hown : ∀ {v}, v ∈ i.uses ∨ i.assigned? = some v → s.Hosts p ∅ (.var c v) :=
    fun hv => hroots.hosts (hi.own hl hs hv)
  have hflow : ∀ {r r'}, s.Hosts p ∅ r → s.Hosts p ∅ r' →
      SolverM.Attains (do SolverM.flow r r'; return none) s (Kept p σ) fun o s' =>
        Leads p σ o.toList s s' := fun ha hb =>
    .bind (h.flow ha hb) fun _ _ h₁ => .pure h₁.leads_nil
  have hnone : SolverM.Attains (pure none) s (Kept p σ) fun o s' => Leads p σ o.toList s s' :=
    .pure h.grows.leads_nil
  obtain ⟨d, hd, hb, hinstr⟩ := id hi
  cases i with
  | new lhs ty => exact h.enterStmt_new hl hs hi hroots
  | invoke call => exact h.enterStmt_invoke hl hs hi hself hr
  | copy lhs rhs => exact .lift_bind hinstr (hflow (hown (.inl (.head _))) (hown (.inr rfl)))
  | cast lhs operand ty =>
    exact .lift_bind hinstr (hflow (hown (.inl (.head _))) (hown (.inr rfl)))
  | loadField lhs access =>
    cases access with
    | static f => exact .lift_bind hinstr (hflow trivial (hown (.inr rfl)))
    | «instance» b f => exact .lift_bind hinstr hnone
  | storeField access rhs =>
    cases access with
    | static f => exact .lift_bind hinstr (hflow (hown (.inl (.head _))) trivial)
    | «instance» b f => exact .lift_bind hinstr hnone
  | unknown tag lhs reads =>
    cases lhs with
    | none => exact .lift_bind hinstr hnone
    | some v =>
      refine .lift_bind hinstr (.attempt_bind (fun _ => h) fun x hx => ?_)
      dsimp only
      split
      · exact .throw_bind h
      · exact hnone
  | _ => exact .lift_bind hinstr hnone

theorem enterMethod (h : s.Anchored p σ ∅) (hr : s.Rooted n) :
    (PointsTo.enterMethod p σ n).Attains s (Kept p σ) fun ns s' => Leads p σ ns s s' := by
  unfold PointsTo.enterMethod
  refine .get_bind ?_
  split
  · exact .pure h.grows.leads_nil
  · have h₁ := h.addReachable hr
    refine .modify_bind ?_
    generalize { s with calls := s.calls.addReachable n } = s₁ at h₁ ⊢
    refine .attempt_bind (fun _ => h₁.anchored) fun clone hclone => ?_
    refine .attempt_bind (fun _ => h₁.anchored) fun d hd => ?_
    refine (h₁.anchored.filterMapM fun site hsite s₂ h₂ => ?_).mono fun ns s₂ h₂ =>
      h₁.leads_nil.trans h₂
    obtain ⟨i, hi⟩ := hl.instr_of_mem_nodes hd (MethodDecl.mem_nodes.2 (.inr (.inl hsite)))
    have hw := h₁.widens.trans h₂.widens
    exact h₂.anchored.enterStmt hl hs ⟨d, hd, hsite, hi⟩
      (h₂.widens.elements.methods (fetch_eq_ok_iff.1 hclone)) (hw.rooted hr)

/-- The clones on the stack are rooted. -/
theorem reach (h : s.Anchored p σ ∅) (hr : s.Rooted n) :
    (PointsTo.reach p σ n).Attains s (Kept p σ) fun _ s' => Grows p σ ∅ s s' := by
  have hstack : ∀ n' ∈ [n], s.Rooted n' := by
    intro n' hn'
    exact List.mem_singleton.1 hn' ▸ hr
  have hsteps : (Progress.iterate (reachStep p σ) (rounds p σ) ([n], s)).Satisfies
      (fun r => Leads p σ r.1 s r.2)
      (fun r => r.1 = .ok () ∧ Grows p σ ∅ s r.2 ∨ ∃ e, r.1 = .error e ∧ Kept p σ e r.2) := by
    refine Progress.iterate_satisfies (fun r hr => ?_) (rounds p σ) ([n], s) ⟨h.grows, hstack⟩
    obtain ⟨_ | ⟨n', stack⟩, s₁⟩ := r
    · exact .inl ⟨rfl, hr.1⟩
    · obtain ⟨h₁, hstack⟩ := hr
      rw [List.forall_mem_cons] at hstack
      obtain ⟨callees, s₂, hrun, h₂⟩ | ⟨e, s₂, hrun, he⟩ :=
        h₁.anchored.enterMethod hl hs hstack.1
      · simp only [reachStep, hrun]
        refine ⟨h₁.trans h₂.1, fun n hn => ?_⟩
        rcases List.mem_append.1 hn with hn | hn
        · exact h₂.2 n (List.mem_reverse.1 hn)
        · exact h₂.1.widens.rooted (hstack.2 n hn)
      · simp only [reachStep, hrun]
        exact .inr ⟨e, rfl, he⟩
  generalize hx : Progress.iterate (reachStep p σ) (rounds p σ) ([n], s) = x at hsteps
  cases x with
  | finished r =>
    obtain ⟨answer, s'⟩ := r
    have hrun : (PointsTo.reach p σ n).run s = (answer, s') := by
      simp only [PointsTo.reach, ExceptT.run_mk, hx]
    obtain ⟨rfl, h'⟩ | ⟨e, rfl, he⟩ := hsteps
    · exact .inl ⟨(), s', hrun, h'⟩
    · exact .inr ⟨e, s', hrun, he⟩
  | running r =>
    have hrun : (PointsTo.reach p σ n).run s = (.error .notConverged, r.2) := by
      simp only [PointsTo.reach, ExceptT.run_mk, hx]
    exact .inr ⟨_, _, hrun, hsteps.1.anchored⟩

omit hs in
theorem passReceiver {callee : MethodId} (h : s.Anchored p σ due) (hd : p.method callee = .ok d)
    (hdue : ⟨c', callee⟩ ∈ due) (o : ObjCloneId) :
    (PointsTo.passReceiver c' d o).Attains s E fun _ s' => Grows p σ due s s' := by
  unfold PointsTo.passReceiver
  split
  · next this hthis =>
    have hhosts : s.Hosts p due (.var c' this) := by
      intro y hy
      obtain ⟨y', hy', rfl⟩ := hl.receiver hd hthis
      cases hy.symm.trans hy'
      exact .inl hdue
    refine .bind (h.pointerId hhosts) fun _ s₁ h₁ => ?_
    exact .modify (h₁.trans (h₁.anchored.quiet rfl rfl))
  · exact .pure h.grows

theorem openAccesses {b : VarId} (h : s.Anchored p σ ∅) (hb : s.Hosts p ∅ (.var c b))
    (o : ObjCloneId) :
    (PointsTo.openAccesses p c b o).Attains s (Kept p σ) fun _ s' => Grows p σ ∅ s s' := by
  have hown : ∀ {site i v}, p.instr site = .ok i → i.isEnd = false → b ∈ i.uses →
      v ∈ i.uses ∨ i.assigned? = some v → s.Hosts p ∅ (.var c v) := by
    intro site i v hi hend hbase hv
    obtain ⟨m, hi⟩ := hl.contains hi hend
    exact (hb.roots hl hs hi hbase).hosts (hi.own hl hs hv)
  unfold PointsTo.openAccesses
  refine .attempt_bind (fun _ => h) fun _ _ => ?_
  refine .bind (h.forIn fun ⟨site, f, rhs⟩ ha s₁ h₁ => .yield ?_) fun _ s₁ h₁ => ?_
  · have hrhs := hown (Program.mem_fieldStores.1 ha) rfl (.head _) (.inl (.tail _ (.head _)))
    exact h₁.anchored.flow (h₁.widens.hosts hrhs) trivial
  refine .bind (h₁.anchored.forIn fun ⟨site, lhs, f⟩ ha s₂ h₂ => .yield ?_) fun _ s₂ h₂ => ?_
  · have hlhs := hown (Program.mem_fieldLoads.1 ha) rfl (.head _) (.inr rfl)
    exact h₂.anchored.flow trivial ((h₁.trans h₂).widens.hosts hlhs)
  have h₂ := h₁.trans h₂
  refine .bind (h₂.anchored.forIn fun ⟨site, rhs⟩ ha s₃ h₃ => .yield ?_) fun _ s₃ h₃ => ?_
  · obtain ⟨access, rfl, hi⟩ := Program.mem_arrayStores.1 ha
    have hrhs := hown hi rfl (.head _) (.inl (.tail _ (.tail _ (.head _))))
    exact h₃.anchored.flow ((h₂.trans h₃).widens.hosts hrhs) trivial
  have h₃ := h₂.trans h₃
  refine .bind (h₃.anchored.forIn fun ⟨site, lhs⟩ ha s₄ h₄ => .yield ?_) fun _ s₄ h₄ => ?_
  · obtain ⟨access, rfl, hi⟩ := Program.mem_arrayLoads.1 ha
    have hlhs := hown hi rfl (.head _) (.inr rfl)
    exact h₄.anchored.flow trivial ((h₃.trans h₄).widens.hosts hlhs)
  · exact .pure (h₃.trans h₄)

theorem openCall {b : VarId} (h : s.Anchored p σ ∅) (hb : s.Hosts p ∅ (.var c b))
    (hcall : (site, call) ∈ p.callsOn b) (o : ObjCloneId) :
    (PointsTo.openCall p σ c o site call).Attains s (Kept p σ) fun _ s' => Grows p σ ∅ s s' := by
  obtain ⟨hreceiver, hinstr⟩ := Program.mem_callsOn.1 hcall
  obtain ⟨m, hi⟩ := hl.contains hinstr rfl
  have hroots := hb.roots hl hs hi (by simp [Instr.uses, hreceiver])
  unfold PointsTo.openCall
  refine .attempt_bind (fun _ => h) fun clone hclone => ?_
  refine .attempt_bind (fun _ => h) fun obj hobj => ?_
  refine .attempt_bind (fun _ => h) fun callee hcallee => ?_
  cases callee with
  | none => exact h.countUnresolved
  | some callee =>
    refine .attempt_bind (fun _ => h) fun x hx => ?_
    refine .attempt_bind (fun _ => h) fun y hy => ?_
    have hx := fetch_eq_ok_iff.1 hx
    have hfits := (h.contexts hx).instanceContext (h.contexts (fetch_eq_ok_iff.1 hy)) site
      clone.obj obj
    refine .bind (h.contextId hfits) ?_
    rintro c' s₁ ⟨h₁, hc'⟩
    refine .attempt_bind (fun _ => h₁.anchored) fun d hd => ?_
    -- the receiver is sent before the call is recorded
    refine .bind ((h₁.anchored.owe {⟨c', callee⟩}).passReceiver hl hd rfl o) fun _ s₂ h₂ => ?_
    obtain ⟨stmt, hstmt, -⟩ := Program.instr_eq_ok.1 hinstr
    obtain rfl := hi.method_eq hl hstmt
    refine .lift_bind hstmt ?_
    have hw₂ := h₁.widens.trans h₂.widens
    refine .bind (h₂.anchored.methodId _ (hw₂.elements.contexts hx)) ?_
    rintro caller s₃ ⟨h₃, hcaller⟩
    have hw₃ := hw₂.trans h₃.widens
    have hrooted : s₃.Rooted caller := by
      obtain ⟨n, hn, hr⟩ := hw₃.roots hroots
      cases Numbering.get?_injective hn hcaller rfl
      exact hr
    have hadd := h₃.anchored.addCall hl hs hi hcaller hrooted
      ((h₂.widens.trans h₃.widens).elements.contexts hc')
    refine .bind hadd fun reached s₄ h₄ => ?_
    have h₄' : Grows p σ ∅ s s₄ := ⟨hw₃.trans h₄.1.widens, h₄.1.anchored⟩
    cases reached with
    | none => exact .pure h₄'
    | some n =>
      have hreach := h₄.1.anchored.reach hl hs (h₄.2 n (List.mem_singleton_self n))
      exact hreach.mono fun _ s₅ h₅ => h₄'.trans h₅

theorem step (h : s.Anchored p σ ∅) :
    (PointsTo.step p σ).Attains s (Kept p σ) fun _ s' => Grows p σ ∅ s s' := by
  unfold PointsTo.step
  refine .get_bind ?_
  split
  · exact .pure h.grows
  · next z objs pending hpop =>
    have h₁ : Grows p σ ∅ s { s with pending, propagations := s.propagations + 1 } :=
      h.quiet rfl rfl
    refine .modify_bind ?_
    generalize { s with pending, propagations := s.propagations + 1 } = s₁ at h₁ ⊢
    refine .bind (P := fun _ s' => Grows p σ ∅ s s')
      (.modifyGet (h₁.trans (h₁.anchored.absorb z objs))) fun new s₂ h₂ => ?_
    split
    · exact .pure h₂
    · refine .get_bind (.attempt_bind (fun _ => h₂.anchored) fun pointer hpointer => ?_)
      have hhosts := h₂.anchored.pointers (fetch_eq_ok_iff.1 hpointer)
      split
      · next c v =>
        refine .bind (h₂.anchored.forIn fun o _ s₃ h₃ => ?_) fun _ s₃ h₃ => .pure (h₂.trans h₃)
        have hv := h₃.widens.hosts hhosts
        refine .bind (h₃.anchored.openAccesses hl hs hv o) fun _ s₄ h₄ => ?_
        refine .yield ((h₄.anchored.forIn fun x hcall s₅ h₅ => .yield ?_).mono fun _ s₅ h₅ =>
          h₄.trans h₅)
        exact h₅.anchored.openCall hl hs ((h₄.trans h₅).widens.hosts hv) hcall o
      · exact .pure h₂

theorem start (h : s.Anchored p σ ∅) :
    (PointsTo.start p σ).Attains s (Kept p σ) fun _ s' => Grows p σ ∅ s s' := by
  unfold PointsTo.start
  refine .get_bind ?_
  split
  · exact .pure h.grows
  · refine .attempt_bind (fun _ => h) fun m hm => ?_
    have hmain := Program.mainMethod_eq_ok.1 hm
    refine .bind (h.contextId (Sensitivity.fits_empty σ _)) ?_
    rintro c s₁ ⟨h₁, hc⟩
    refine .bind (h₁.anchored.methodId ⟨c, m⟩ hc) ?_
    rintro n s₂ ⟨h₂, hn⟩
    have h₃ := h₂.anchored.addEntry ⟨_, hn, h₂.widens.elements.contexts hc, hmain⟩
    refine .modify_bind ?_
    have hreach := h₃.1.anchored.reach hl hs (h₃.2 n (List.mem_singleton_self n))
    refine .bind hreach fun _ s₄ h₄ => .modify ?_
    exact h₁.trans (h₂.trans (h₃.1.trans (h₄.trans (h₄.anchored.quiet rfl rfl))))

theorem solve (h : s.Anchored p σ ∅) :
    (PointsTo.solve p σ).Attains s (Kept p σ) fun _ s' => s'.Anchored p σ ∅ := by
  refine .bind (h.start hl hs) fun _ s₁ h₁ => .repeatWhile_keeps (fun s₂ h₂ => ?_) h₁.anchored
  exact (h₂.step hl hs).mono fun _ _ h₃ => h₃.anchored

end

end State.Anchored

theorem State.anchored_initial : State.Anchored .initial p σ ∅ where
  contexts {c x} hc := by
    rcases Numbering.of_get?_ensure hc with hc | ⟨-, rfl⟩
    · cases hc
    · exact Sensitivity.fits_empty σ _
  methods := nofun
  objects := nofun
  entries := nofun
  reachable := nofun
  callers := nofun
  pointers := nofun

theorem Request.serve_keeps (hl : p.Layout) (hs : p.Scoped) (h : s.Anchored p σ ∅)
    (r : Request) : (r.serve p σ).Attains s (Kept p σ) fun _ s' => s'.Anchored p σ ∅ := by
  cases r with
  | start => exact (h.start hl hs).mono fun _ _ h' => h'.anchored
  | step => exact .bind (h.step hl hs) fun _ _ h' => .pure h'.anchored
  | solve => exact h.solve hl hs

theorem Served.anchored (hl : p.Layout) (hs : p.Scoped)
    {allowed : Except AnalysisError Unit → Prop} (h : Served p σ allowed s) : s.Anchored p σ ∅ :=
  h.of_keeps State.anchored_initial fun _ r h => r.serve_keeps hl hs h

end ProgramFlow.PointsTo
