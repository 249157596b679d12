import ProgramFlow.Proofs.PointsTo.Queries
import ProgramFlow.Proofs.PointsTo.Resolution
/-!
What is asked of a points-to analysis without contexts is answered by the projection of what it
knows in contexts. This holds for every program that it analyses.
-/
namespace ProgramFlow.PointsTo

/-- The items grow, so that none of them comes twice. -/
def Increasing {α : Type} [Ord α] (l : List α) : Prop :=
  l.Pairwise fun a b => compare a b = .lt

namespace State

variable (s : State)

/-- The clone is of the object in the heap context. -/
def IsClone (b : ObjCloneId) (h : Context) (o : ObjId) : Prop :=
  ∃ clone, s.elements.objects.get? b = some clone ∧
    s.elements.contexts.get? clone.context = some h ∧ clone.obj = o

/-- The set of the pointer has a clone of the object in the heap context. -/
def Contains (r : Pointer) (h : Context) (o : ObjId) : Prop :=
  ∃ x b, s.elements.pointer? x = some r ∧ b ∈ s.elements.objectsOf x ∧ s.IsClone b h o

end State

/-- Questions without contexts have the answers in all contexts together, and the answers in
contexts leave out nothing that is recorded. -/
structure Result.Projects (r : Result) : Prop where
  clones : ∀ x b, b ∈ r.state.elements.objectsOf x → ∃ h o, r.state.IsClone b h o
  contexts : ∀ x k v, r.state.elements.pointer? x = some (.var k v) →
    ∃ c, r.state.elements.contexts.get? k = some c
  contextsOf : ∀ v c, c ∈ r.contextsOf v ↔
    ∃ k x, r.state.elements.contexts.get? k = some c ∧ r.state.elements.pointer? x = some (.var k v)
  contextsOf_nodup : ∀ v, (r.contextsOf v).Nodup
  contextPointsTo : ∀ v c h o, (h, o) ∈ r.contextPointsTo c v ↔
    ∃ k, r.state.elements.contexts.get? k = some c ∧ r.state.Contains (.var k v) h o
  contextPointsTo_nodup : ∀ v c, (r.contextPointsTo c v).Nodup
  contextPointsTo_outside : ∀ v c, c ∉ r.contextsOf v → r.contextPointsTo c v = []
  pointsTo : ∀ v o, o ∈ r.pointsTo v ↔
    ∃ c ∈ r.contextsOf v, ∃ h, (h, o) ∈ r.contextPointsTo c v
  staticFieldPointsTo : ∀ f o, o ∈ r.staticFieldPointsTo f ↔
    ∃ h, r.state.Contains (.staticField f) h o
  instanceFieldPointsTo : ∀ base f o, o ∈ r.instanceFieldPointsTo base f ↔
    ∃ b hb h, r.state.IsClone b hb base ∧ r.state.Contains (.instanceField b f) h o
  arrayPointsTo : ∀ base o, o ∈ r.arrayPointsTo base ↔
    ∃ b hb h, r.state.IsClone b hb base ∧ r.state.Contains (.arrayElement b) h o
  mayAlias : ∀ v w, r.mayAlias v w = true ↔ ∃ o, o ∈ r.pointsTo v ∧ o ∈ r.pointsTo w
  mayAlias_comm : ∀ v w, r.mayAlias v w = r.mayAlias w v
  /-- There is one call in context for each edge, in the order of the edges. -/
  contextCalls : r.contextCalls.map .ok =
    r.state.calls.edges.toList.map r.state.elements.contextCall
  calls : ∀ s m, ⟨s, m⟩ ∈ r.calls ↔ ∃ c ∈ r.contextCalls, c.site = s ∧ c.callee = m
  calleesOf : ∀ s m, m ∈ r.calleesOf s ↔ ∃ c ∈ r.contextCalls, c.site = s ∧ c.callee = m
  reachable : ∀ n ∈ r.state.calls.reachable.toList, r.state.HasMethod n
  reachableMethods : ∀ m, m ∈ r.reachableMethods ↔ ∃ n ∈ r.state.calls.reachable.toList,
    ∃ clone, r.state.elements.methods.get? n = some clone ∧ clone.method = m
  increasing : (∀ v, Increasing (r.pointsTo v).toList) ∧
    (∀ f, Increasing (r.staticFieldPointsTo f).toList) ∧
    (∀ base f, Increasing (r.instanceFieldPointsTo base f).toList) ∧
    (∀ base, Increasing (r.arrayPointsTo base).toList) ∧ Increasing r.calls.toList ∧
    (∀ s, Increasing (r.calleesOf s)) ∧ Increasing r.reachableMethods.toList

theorem map_ok_of_mapM {α β : Type} {f : α → Outcome β} {l : List α} {r : List β}
    (h : l.mapM f = .ok r) : r.map .ok = l.map f := by
  induction Outcome.mapM_eq_ok.1 h with
  | nil => rfl
  | cons hb hr ih => simp [hb, ih (Outcome.mapM_eq_ok.2 hr)]

theorem State.IsClone.injective {s : State} {b b' : ObjCloneId} {h : Context} {o : ObjId}
    (hb : s.IsClone b h o) (hb' : s.IsClone b' h o) : b = b' := by
  obtain ⟨⟨c, _⟩, hclone, hc, rfl⟩ := hb
  obtain ⟨⟨c', _⟩, hclone', hc', rfl⟩ := hb'
  cases Numbering.get?_injective hc hc' rfl
  exact Numbering.get?_injective hclone hclone' rfl

namespace Result

variable {r : Result} {v : VarId} {c h : Context} {o : ObjId}

/-! ## Variables in contexts -/

theorem mem_contextsOf (hr : r.state.Resolved) : c ∈ r.contextsOf v ↔
    ∃ k x, r.state.elements.contexts.get? k = some c ∧
      r.state.elements.pointer? x = some (.var k v) := by
  simp only [contextsOf, List.mem_filterMap, Prod.exists]
  constructor
  · rintro ⟨pointer, objs, hrow, hc⟩
    obtain ⟨x, hx, -⟩ := hr.inStep.mem_rows.1 hrow
    cases pointer with
    | var k w =>
      simp only [Option.ite_none_right_eq_some] at hc
      obtain ⟨rfl, hc⟩ := hc
      exact ⟨k, x, hc, hx⟩
    | _ => cases hc
  · rintro ⟨k, x, hk, hx⟩
    exact ⟨_, _, hr.inStep.mem_rows.2 ⟨x, hx, rfl⟩, by simp [hk]⟩

theorem nodup_contextsOf (hr : r.state.Resolved) (v : VarId) : (r.contextsOf v).Nodup := by
  have hkeys := List.pairwise_map.1 hr.inStep.nodup_rows
  refine hkeys.filterMap _ ?_
  rintro ⟨pointer, _⟩ ⟨pointer', _⟩ hne c hc c' hc' rfl
  cases pointer with
  | var k w =>
    cases pointer' with
    | var k' w' =>
      simp only [Option.ite_none_right_eq_some] at hc hc'
      obtain ⟨rfl, hc⟩ := hc
      obtain ⟨rfl, hc'⟩ := hc'
      exact hne (congrArg (Pointer.var · w') (Numbering.get?_injective hc hc' rfl))
    | _ => cases hc'
  | _ => cases hc

/-- The clones of a variable in a context, if it was met there. -/
theorem contextPointsTo_cases (c : Context) (v : VarId) :
    (∃ k x, r.state.elements.contexts.get? k = some c ∧
      r.state.elements.pointer? x = some (.var k v) ∧
      r.contextPointsTo c v = (r.state.elements.objectsOf x).toList.filterMap fun o => do
        let clone ← r.state.elements.objects.get? o
        return (← r.state.elements.contexts.get? clone.context, clone.obj)) ∨
    (∀ k x, r.state.elements.contexts.get? k = some c →
      r.state.elements.pointer? x ≠ some (.var k v)) ∧ r.contextPointsTo c v = [] := by
  cases hk : r.state.elements.contexts.find? c with
  | none =>
    refine .inr ⟨fun k x hc => ?_, by simp [contextPointsTo, hk, SortedSet.mem_toList]⟩
    cases (Numbering.find?_eq_some_iff.2 ⟨c, hc, rfl⟩).symm.trans hk
  | some k =>
    obtain ⟨c', hc, hkey⟩ := Numbering.find?_eq_some_iff.1 hk
    obtain rfl : c' = c := hkey
    cases hx : r.state.elements.pointers.find? (.var k v) with
    | none =>
      refine .inr ⟨fun k' x hc' hx' => ?_, by simp [contextPointsTo, hk, hx, SortedSet.mem_toList]⟩
      cases Numbering.get?_injective hc hc' rfl
      cases (Numbering.find?_eq_some_iff.2 ⟨_, hx', rfl⟩).symm.trans hx
    | some x =>
      obtain ⟨_, hx', rfl⟩ := Numbering.find?_eq_some_iff.1 hx
      exact .inl ⟨k, x, hc, hx', by simp [contextPointsTo, hk, hx]⟩

theorem clone_eq_some_iff {b : ObjCloneId} : (do
      let clone ← r.state.elements.objects.get? b
      return (← r.state.elements.contexts.get? clone.context, clone.obj)) = some (h, o) ↔
    r.state.IsClone b h o := by
  simp only [State.IsClone, Option.bind_eq_bind, Option.bind_eq_some_iff, Option.pure_def,
    Option.some.injEq, Prod.mk.injEq]
  grind

theorem mem_contextPointsTo : (h, o) ∈ r.contextPointsTo c v ↔
    ∃ k, r.state.elements.contexts.get? k = some c ∧ r.state.Contains (.var k v) h o := by
  obtain ⟨k, x, hk, hx, heq⟩ | ⟨hnone, heq⟩ := r.contextPointsTo_cases c v
  · simp only [heq, List.mem_filterMap, clone_eq_some_iff]
    constructor
    · rintro ⟨b, hb, hclone⟩
      exact ⟨k, hk, x, b, hx, hb, hclone⟩
    · rintro ⟨k', hk', x', b, hx', hb, hclone⟩
      cases Numbering.get?_injective hk hk' rfl
      cases Numbering.get?_injective hx hx' rfl
      exact ⟨b, hb, hclone⟩
  · rw [heq]
    constructor
    · nofun
    · rintro ⟨k, hk, x, b, hx, -⟩
      exact absurd hx (hnone k x hk)

theorem nodup_contextPointsTo (v : VarId) (c : Context) : (r.contextPointsTo c v).Nodup := by
  obtain ⟨k, x, -, -, heq⟩ | ⟨-, heq⟩ := r.contextPointsTo_cases c v
  · rw [heq]
    refine (SortedSet.nodup _).filterMap fun b b' ⟨h, o⟩ hb hb' => ?_
    exact (clone_eq_some_iff.1 hb).injective (clone_eq_some_iff.1 hb')
  · rw [heq]
    exact .nil

theorem contextPointsTo_outside (hr : r.state.Resolved) (hc : c ∉ r.contextsOf v) :
    r.contextPointsTo c v = [] := by
  obtain ⟨k, x, hk, hx, -⟩ | ⟨-, heq⟩ := r.contextPointsTo_cases c v
  · exact absurd ((mem_contextsOf hr).2 ⟨k, x, hk, hx⟩) hc
  · exact heq

/-! ## Projections -/

section

variable (hr : r.state.Resolved)
include hr

theorem exists_isClone {x : PointerId} {b : ObjCloneId} (hb : b ∈ r.state.elements.objectsOf x) :
    ∃ h o, r.state.IsClone b h o := by
  obtain ⟨clone, hclone⟩ := hr.sets (x := x) (.inl hb)
  obtain ⟨h, hh⟩ := hr.objects hclone
  exact ⟨h, clone.obj, clone, hclone, hh, rfl⟩

theorem objectOf_iff_isClone {b : ObjCloneId} :
    r.state.elements.objectOf b = .ok o ↔ ∃ h, r.state.IsClone b h o := by
  rw [Elements.objectOf_eq_ok_iff]
  constructor
  · intro hb
    obtain ⟨clone, hclone, ho⟩ := hb
    obtain ⟨h, hh⟩ := hr.objects hclone
    exact ⟨h, clone, hclone, hh, ho⟩
  · intro hb
    obtain ⟨h, clone, hclone, -, ho⟩ := hb
    exact ⟨clone, hclone, ho⟩

theorem mem_objects_iff_contains {a : Holder} : o ∈ r.objects a ↔
    ∃ pointer, r.state.elements.holder pointer = .ok a ∧ ∃ h, r.state.Contains pointer h o := by
  rw [mem_objects_iff_records hr.inStep]
  constructor
  · intro hrecords
    obtain ⟨x, b, pointer, hb, hx, ha, ho⟩ := hrecords
    obtain ⟨h, hclone⟩ := (objectOf_iff_isClone hr).1 ho
    exact ⟨pointer, ha, h, x, b, hx, hb, hclone⟩
  · intro hcontains
    obtain ⟨pointer, ha, h, x, b, hx, hb, hclone⟩ := hcontains
    exact ⟨x, b, pointer, hb, hx, ha, (objectOf_iff_isClone hr).2 ⟨h, hclone⟩⟩

theorem mem_pointsTo_iff : o ∈ r.pointsTo v ↔
    ∃ c ∈ r.contextsOf v, ∃ h, (h, o) ∈ r.contextPointsTo c v := by
  rw [pointsTo, mem_objects_iff_contains hr]
  constructor
  · intro hpointer
    obtain ⟨pointer, ha, h, hcontains⟩ := hpointer
    cases Elements.holder_eq_ok_iff.1 ha with
    | @var k =>
      obtain ⟨x, -, hx, -⟩ := id hcontains
      obtain ⟨c, hc⟩ := hr.pointers hx
      have hmem := mem_contextPointsTo.2 ⟨k, hc, hcontains⟩
      exact ⟨c, (mem_contextsOf hr).2 ⟨k, x, hc, hx⟩, h, hmem⟩
  · intro hcontext
    obtain ⟨c, -, h, hmem⟩ := hcontext
    obtain ⟨k, -, hcontains⟩ := mem_contextPointsTo.1 hmem
    exact ⟨.var k v, rfl, h, hcontains⟩

theorem mem_staticFieldPointsTo_iff {f : FieldId} : o ∈ r.staticFieldPointsTo f ↔
    ∃ h, r.state.Contains (.staticField f) h o := by
  rw [staticFieldPointsTo, mem_objects_iff_contains hr]
  constructor
  · intro hpointer
    obtain ⟨pointer, ha, h, hcontains⟩ := hpointer
    cases Elements.holder_eq_ok_iff.1 ha with
    | staticField => exact ⟨h, hcontains⟩
  · intro hfield
    obtain ⟨h, hcontains⟩ := hfield
    exact ⟨_, rfl, h, hcontains⟩

theorem mem_instanceFieldPointsTo_iff {base : ObjId} {f : FieldId} :
    o ∈ r.instanceFieldPointsTo base f ↔
      ∃ b hb h, r.state.IsClone b hb base ∧ r.state.Contains (.instanceField b f) h o := by
  rw [instanceFieldPointsTo, mem_objects_iff_contains hr]
  constructor
  · intro hpointer
    obtain ⟨pointer, ha, h, hcontains⟩ := hpointer
    cases Elements.holder_eq_ok_iff.1 ha with
    | @instanceField b _ _ ho =>
      obtain ⟨hb, hclone⟩ := (objectOf_iff_isClone hr).1 ho
      exact ⟨b, hb, h, hclone, hcontains⟩
  · intro hfield
    obtain ⟨b, hb, h, hclone, hcontains⟩ := hfield
    have ho := (objectOf_iff_isClone hr).2 ⟨hb, hclone⟩
    exact ⟨_, Elements.holder_eq_ok_iff.2 (.instanceField ho), h, hcontains⟩

theorem mem_arrayPointsTo_iff {base : ObjId} : o ∈ r.arrayPointsTo base ↔
    ∃ b hb h, r.state.IsClone b hb base ∧ r.state.Contains (.arrayElement b) h o := by
  rw [arrayPointsTo, mem_objects_iff_contains hr]
  constructor
  · intro hpointer
    obtain ⟨pointer, ha, h, hcontains⟩ := hpointer
    cases Elements.holder_eq_ok_iff.1 ha with
    | @arrayElement b _ ho =>
      obtain ⟨hb, hclone⟩ := (objectOf_iff_isClone hr).1 ho
      exact ⟨b, hb, h, hclone, hcontains⟩
  · intro harray
    obtain ⟨b, hb, h, hclone, hcontains⟩ := harray
    have ho := (objectOf_iff_isClone hr).2 ⟨hb, hclone⟩
    exact ⟨_, Elements.holder_eq_ok_iff.2 (.arrayElement ho), h, hcontains⟩

end

theorem mem_calls_iff {s : StmtId} {m : MethodId} : ⟨s, m⟩ ∈ r.calls ↔
    ∃ c ∈ r.contextCalls, c.site = s ∧ c.callee = m := by
  simp [calls]

theorem mem_calleesOf_iff {s : StmtId} {m : MethodId} : m ∈ r.calleesOf s ↔
    ∃ c ∈ r.contextCalls, c.site = s ∧ c.callee = m := by
  rw [← mem_calls_iff]
  simp only [calleesOf, List.mem_map, SortedSet.mem_toList, SortedSet.mem_filter, decide_eq_true_eq]
  constructor
  · rintro ⟨⟨s', m'⟩, ⟨hmem, rfl⟩, rfl⟩
    exact hmem
  · exact fun hmem => ⟨_, ⟨hmem, rfl⟩, rfl⟩

/-- The calls of one site are in the order of their callees. -/
theorem increasing_calleesOf (s : StmtId) : Increasing (r.calleesOf s) := by
  refine List.pairwise_map.2 ((r.calls.filter (·.site = s)).increasing.imp_of_mem ?_)
  intro a b ha hb hlt
  have ha : a.site = s := by simpa using (SortedSet.mem_filter.1 ha).2
  have hb : b.site = s := by simpa using (SortedSet.mem_filter.1 hb).2
  have hsite : compareOn CallPair.site a b = .eq := by
    rw [compareOn, ha, hb]
    exact Std.ReflCmp.compare_self
  change (compareOn CallPair.site a b).then (compareOn CallPair.callee a b) = .lt at hlt
  rwa [hsite] at hlt

/-- The queries that leave contexts out are the exact projections of those in contexts, for every
program whose analysis succeeds. -/
theorem projects_of_analyze {p : Program} {σ : Sensitivity} (h : analyze p σ = .ok r) :
    r.Projects := by
  have hr := resolved_of_analyze h
  exact {
    clones := fun _ _ hb => exists_isClone hr hb
    contexts := fun _ _ _ hx => hr.pointers hx
    contextsOf := fun _ _ => mem_contextsOf hr
    contextsOf_nodup := nodup_contextsOf hr
    contextPointsTo := fun _ _ _ _ => mem_contextPointsTo
    contextPointsTo_nodup := nodup_contextPointsTo
    contextPointsTo_outside := fun _ _ => contextPointsTo_outside hr
    pointsTo := fun _ _ => mem_pointsTo_iff hr
    staticFieldPointsTo := fun _ _ => mem_staticFieldPointsTo_iff hr
    instanceFieldPointsTo := fun _ _ _ => mem_instanceFieldPointsTo_iff hr
    arrayPointsTo := fun _ _ => mem_arrayPointsTo_iff hr
    mayAlias := fun _ _ => mayAlias_iff
    mayAlias_comm := fun _ _ => Bool.eq_iff_iff.2 (by simp only [mayAlias_iff, and_comm])
    contextCalls := map_ok_of_mapM (State.tables_eq_ok_iff.1 r.read).2.1
    calls := fun _ _ => mem_calls_iff
    calleesOf := fun _ _ => mem_calleesOf_iff
    reachable := fun _ hn => hr.reachable hn
    reachableMethods := fun _ => mem_reachableMethods_iff
    increasing := ⟨fun _ => SortedSet.increasing _, fun _ => SortedSet.increasing _,
      fun _ _ => SortedSet.increasing _, fun _ => SortedSet.increasing _, SortedSet.increasing _,
      increasing_calleesOf, SortedSet.increasing _⟩ }

/-- In the sample with one object of context, the receiver is met in the context of the cell. -/
theorem projects_sample : ∃ r, analyze Program.sample (.object 1) = .ok r ∧ r.Projects ∧
    (r.contextsOf ⟨0⟩).length = 1 ∧ (r.pointsTo ⟨0⟩).toList = [⟨0⟩] := by
  have hok : (do
      let r ← analyze Program.sample (.object 1)
      return decide ((r.contextsOf ⟨0⟩).length = 1 ∧ (r.pointsTo ⟨0⟩).toList = [⟨0⟩]) :
        Outcome Bool) = .ok true := by decide +kernel
  obtain ⟨r, hr, h⟩ := Outcome.bind_eq_ok.1 hok
  obtain ⟨hcontexts, hobjects⟩ := of_decide_eq_true (Except.ok.inj h)
  exact ⟨r, hr, projects_of_analyze hr, hcontexts, hobjects⟩

end Result

end ProgramFlow.PointsTo
