import ProgramFlow.Proofs.PointsTo.Exactness
import ProgramFlow.Proofs.PointsTo.Holdings
/-!
The answers of a points-to analysis in terms of the inference rules.
-/
namespace ProgramFlow.PointsTo

variable {p : Program} {σ : Sensitivity} {r : Result}

/-- An analysis returns the state of a solver that has succeeded. -/
theorem analyze_eq_ok_iff : analyze p σ = .ok r ↔
    σ.validate = .ok () ∧ r.sensitivity = σ ∧ (solve p σ).run .initial = (.ok (), r.state) := by
  constructor
  · intro h
    obtain ⟨_, hvalid, h⟩ := Outcome.bind_eq_ok.1 h
    obtain ⟨_, hrun, h⟩ := Outcome.bind_eq_ok.1 h
    obtain ⟨hσ, hstate⟩ := Result.ofState_eq_ok_iff.1 h
    refine ⟨?_, hσ, Prod.ext hrun hstate.symm⟩
    cases hv : σ.validate with
    | error e =>
      rw [hv] at hvalid
      cases hvalid
    | ok => rfl
  · intro h
    obtain ⟨hvalid, hσ, hrun⟩ := h
    simp only [analyze, hvalid, hrun]
    exact Result.ofState_eq_ok_iff.2 ⟨hσ, rfl⟩

/-- After a run that succeeds nothing else fails. -/
theorem exists_analyze_of_solve {s : State} (hvalid : σ.validate = .ok ())
    (hrun : (solve p σ).run .initial = (.ok (), s)) : ∃ r, analyze p σ = .ok r ∧ r.state = s := by
  obtain ⟨r, hr⟩ := (State.resolved_initial.solve () s hrun).exists_ofState σ
  obtain ⟨hσ, rfl⟩ := Result.ofState_eq_ok_iff.1 hr
  exact ⟨r, analyze_eq_ok_iff.2 ⟨hvalid, hσ, hrun⟩, rfl⟩

theorem resolved_of_analyze (h : analyze p σ = .ok r) : r.state.Resolved :=
  State.resolved_initial.solve () _ (analyze_eq_ok_iff.1 h).2.2

theorem analyze_ensures (hl : p.Layout) (hs : p.Scoped) (h : analyze p σ = .ok r) :
    Balanced p σ (Derivable p σ) r.state ∅ ∧ r.state.pending.toList = [] :=
  solve_ensures hl hs () _ (analyze_eq_ok_iff.1 h).2.2

theorem State.find?_site {s : State} {c : ObjCloneId} {l : Location} (h : s.location c = some l)
    {o : ObjId} : s.heap.find? l.site = some o ↔
      ∃ clone, s.elements.objects.get? c = some clone ∧ clone.obj = o := by
  obtain ⟨clone, obj, hc, ho, -, hsite⟩ := State.location_eq_some_iff.1 h
  have hfind : s.heap.find? l.site = some clone.obj :=
    Numbering.find?_eq_some_iff.2 ⟨obj, ho, hsite⟩
  simp [hfind, hc]

theorem State.of_slotOf {s : State} {x : Pointer} {a : Slot} (h : s.slotOf x = some a) :
    (∃ c t v, x = .var c v ∧ s.trail c = some t ∧ a = .var t v) ∨
    (∃ f, x = .staticField f ∧ a = .staticField f) ∨
    (∃ c l f, x = .instanceField c f ∧ s.location c = some l ∧ a = .instanceField l f) ∨
    ∃ c l, x = .arrayElement c ∧ s.location c = some l ∧ a = .arrayElement l := by
  cases x with
  | var c v =>
    obtain ⟨t, ht, rfl⟩ := Option.map_eq_some_iff.1 h
    exact .inl ⟨c, t, v, rfl, ht, rfl⟩
  | staticField f => exact .inr (.inl ⟨f, rfl, (Option.some.inj h).symm⟩)
  | instanceField c f =>
    obtain ⟨l, hl, rfl⟩ := Option.map_eq_some_iff.1 h
    exact .inr (.inr (.inl ⟨c, l, f, rfl, hl, rfl⟩))
  | arrayElement c =>
    obtain ⟨l, hl, rfl⟩ := Option.map_eq_some_iff.1 h
    exact .inr (.inr (.inr ⟨c, l, rfl, hl, rfl⟩))

/-- A slot belongs to a holder: its context is left out. -/
inductive State.BelongsTo (s : State) : Slot → Holder → Prop
  | var {t v} : BelongsTo s (.var t v) (.var v)
  | staticField {f} : BelongsTo s (.staticField f) (.staticField f)
  | instanceField {b f o} (h : s.heap.find? b.site = some o) :
    BelongsTo s (.instanceField b f) (.instanceField ⟨o, f⟩)
  | arrayElement {b o} (h : s.heap.find? b.site = some o) :
    BelongsTo s (.arrayElement b) (.arrayElement o)

namespace Result

theorem mem_objects {a : Holder} {o : ObjId} : o ∈ r.objects a ↔
    ∃ row ∈ r.state.elements.pointers.rows, r.state.elements.Brings row a o :=
  Elements.mem_objects_of_holdings (State.tables_eq_ok_iff.1 r.read).1

/-- The recorded objects of the pointers of a holder. -/
theorem mem_objects_iff_records (hstep : r.state.elements.pointers.InStep) {a : Holder}
    {o : ObjId} : o ∈ r.objects a ↔ ∃ x c pointer, r.state.Records (.pointsTo x c) ∧
      r.state.elements.pointer? x = some pointer ∧ r.state.elements.holder pointer = .ok a ∧
      r.state.elements.objectOf c = .ok o := by
  rw [mem_objects]
  constructor
  · intro hrow
    obtain ⟨⟨pointer, objs⟩, hrow, ha, c, hc, ho⟩ := hrow
    obtain ⟨x, hx, rfl⟩ := hstep.mem_rows.1 hrow
    exact ⟨x, c, pointer, hc, hx, ha, ho⟩
  · intro hrecords
    obtain ⟨x, c, pointer, hc, hx, ha, ho⟩ := hrecords
    exact ⟨_, hstep.mem_rows.2 ⟨x, hx, rfl⟩, ha, c, hc, ho⟩

theorem objectOf_iff {c : ObjCloneId} {l : Location} (h : r.state.location c = some l)
    {o : ObjId} : r.state.elements.objectOf c = .ok o ↔ r.state.heap.find? l.site = some o := by
  rw [State.find?_site h, Elements.objectOf_eq_ok_iff]

/-- The holder of a pointer is that of its slot. -/
theorem holder_iff {x : Pointer} {s : Slot} (h : r.state.slotOf x = some s) {a : Holder} :
    r.state.elements.holder x = .ok a ↔ r.state.BelongsTo s a := by
  rw [Elements.holder_eq_ok_iff]
  rcases State.of_slotOf h with ⟨c, t, v, rfl, -, rfl⟩ | ⟨f, rfl, rfl⟩ | ⟨c, l, f, rfl, hl, rfl⟩ |
    ⟨c, l, rfl, hl, rfl⟩
  · constructor
    · intro ha
      cases ha
      exact .var
    · intro ha
      cases ha
      exact .var
  · constructor
    · intro ha
      cases ha
      exact .staticField
    · intro ha
      cases ha
      exact .staticField
  · constructor
    · intro ha
      cases ha with
      | instanceField ho => exact .instanceField ((objectOf_iff hl).1 ho)
    · intro ha
      cases ha with
      | instanceField hb => exact .instanceField ((objectOf_iff hl).2 hb)
  · constructor
    · intro ha
      cases ha with
      | arrayElement ho => exact .arrayElement ((objectOf_iff hl).1 ho)
    · intro ha
      cases ha with
      | arrayElement hb => exact .arrayElement ((objectOf_iff hl).2 hb)

theorem contextCall_of_invocation {e : CallEdge} {i : Invocation}
    (h : r.state.invocation e = some i) :
    ∃ c, r.state.elements.contextCall e = .ok c ∧ c.site = i.site ∧ c.callee = i.callee := by
  obtain ⟨site, caller, callee, hs, hm, hc, heq, ht, ht', -, hsite, -, hcallee⟩ :=
    State.invocation_eq_some_iff.1 h
  obtain ⟨x, hx, -⟩ := State.trail_eq_some_iff.1 ht
  obtain ⟨y, hy, -⟩ := State.trail_eq_some_iff.1 ht'
  rw [heq] at hx
  rw [← Numbering.row_eq_ok_iff] at hs hm hc hx hy
  refine ⟨⟨e.kind, site.site, caller.method, x, callee.method, y⟩, ?_, hsite, hcallee⟩
  simp only [Elements.contextCall, hs, hm, hc, hx, hy, Outcome.ok_bind, Outcome.pure_eq]

theorem mem_contextCalls {c : ContextCall} : c ∈ r.contextCalls ↔
    ∃ e ∈ r.state.calls.edges.toList, r.state.elements.contextCall e = .ok c :=
  Outcome.mem_of_mapM (State.tables_eq_ok_iff.1 r.read).2.1

theorem mem_reachableMethods_iff {m : MethodId} : m ∈ r.reachableMethods ↔
    ∃ n ∈ r.state.calls.reachable.toList, ∃ clone,
      r.state.elements.methods.get? n = some clone ∧ clone.method = m := by
  have hreach := (State.tables_eq_ok_iff.1 r.read).2.2.1
  simp only [reachableMethods, SortedSet.mem_ofList, Outcome.mem_of_mapM hreach,
    Elements.methodOf_eq_ok_iff]

section

variable (h : Balanced p σ (Derivable p σ) r.state ∅) (hdone : r.state.pending.toList = [])
include h hdone

/-- The objects of a holder are those that the rules give to its slots. -/
theorem mem_objects_iff {a : Holder} {o : ObjId} : o ∈ r.objects a ↔
    ∃ s l, r.state.BelongsTo s a ∧ Derivable p σ (.pointsTo s l) ∧
      r.state.heap.find? l.site = some o := by
  rw [mem_objects_iff_records h.inStep]
  constructor
  · intro hrecords
    obtain ⟨x, c, pointer, hf, hx, ha, ho⟩ := hrecords
    obtain ⟨J, hJ, hd⟩ := h.derivable (.inl hf)
    obtain ⟨s, l, hs, hl, rfl⟩ := State.read_pointsTo_eq.1 hJ
    obtain ⟨pointer', hx', hs⟩ := State.slot_eq_some_iff.1 hs
    cases hx.symm.trans hx'
    exact ⟨s, l, (holder_iff hs).1 ha, hd, (objectOf_iff hl).1 ho⟩
  · intro hderivable
    obtain ⟨s, l, ha, hd, ho⟩ := hderivable
    obtain ⟨f, hf, hread⟩ := h.exists_of_derivable hdone hd
    obtain ⟨x, c, rfl, hx, hl⟩ := State.of_read_pointsTo hread
    obtain ⟨pointer, hx, hpointer⟩ := State.slot_eq_some_iff.1 hx
    exact ⟨x, c, pointer, hf, hx, (holder_iff hpointer).2 ha, (objectOf_iff hl).2 ho⟩

theorem mem_pointsTo {v : VarId} {o : ObjId} : o ∈ r.pointsTo v ↔
    ∃ t l, Derivable p σ (.pointsTo (.var t v) l) ∧ r.state.heap.find? l.site = some o := by
  rw [pointsTo, mem_objects_iff h hdone]
  constructor
  · intro hslot
    obtain ⟨s, l, hs, hl⟩ := hslot
    cases hs
    exact ⟨_, l, hl⟩
  · intro hvar
    obtain ⟨t, l, hl⟩ := hvar
    exact ⟨_, l, .var, hl⟩

theorem mem_staticFieldPointsTo {f : FieldId} {o : ObjId} : o ∈ r.staticFieldPointsTo f ↔
    ∃ l, Derivable p σ (.pointsTo (.staticField f) l) ∧ r.state.heap.find? l.site = some o := by
  rw [staticFieldPointsTo, mem_objects_iff h hdone]
  constructor
  · intro hslot
    obtain ⟨s, l, hs, hl⟩ := hslot
    cases hs
    exact ⟨l, hl⟩
  · intro hfield
    obtain ⟨l, hl⟩ := hfield
    exact ⟨_, l, .staticField, hl⟩

theorem mem_instanceFieldPointsTo {base : ObjId} {f : FieldId} {o : ObjId} :
    o ∈ r.instanceFieldPointsTo base f ↔ ∃ b l, Derivable p σ (.pointsTo (.instanceField b f) l) ∧
      r.state.heap.find? b.site = some base ∧ r.state.heap.find? l.site = some o := by
  rw [instanceFieldPointsTo, mem_objects_iff h hdone]
  constructor
  · intro hslot
    obtain ⟨s, l, hs, hd, ho⟩ := hslot
    cases hs with
    | instanceField hb => exact ⟨_, l, hd, hb, ho⟩
  · intro hfield
    obtain ⟨b, l, hd, hb, ho⟩ := hfield
    exact ⟨_, l, .instanceField hb, hd, ho⟩

theorem mem_arrayPointsTo {base o : ObjId} : o ∈ r.arrayPointsTo base ↔
    ∃ b l, Derivable p σ (.pointsTo (.arrayElement b) l) ∧
      r.state.heap.find? b.site = some base ∧ r.state.heap.find? l.site = some o := by
  rw [arrayPointsTo, mem_objects_iff h hdone]
  constructor
  · intro hslot
    obtain ⟨s, l, hs, hd, ho⟩ := hslot
    cases hs with
    | arrayElement hb => exact ⟨_, l, hd, hb, ho⟩
  · intro harray
    obtain ⟨b, l, hd, hb, ho⟩ := harray
    exact ⟨_, l, .arrayElement hb, hd, ho⟩

theorem mem_calls {x : CallPair} : x ∈ r.calls ↔
    ∃ i, Derivable p σ (.call i) ∧ i.site = x.site ∧ i.callee = x.callee := by
  simp only [calls, SortedSet.mem_ofList, List.mem_map, mem_contextCalls]
  constructor
  · rintro ⟨c, ⟨e, he, hc⟩, rfl⟩
    obtain ⟨J, hJ, hd⟩ := h.derivable (f := .call e) (.inl he)
    obtain ⟨i, hi, rfl⟩ := State.read_call_eq.1 hJ
    obtain ⟨c', hc', hsite, hcallee⟩ := contextCall_of_invocation hi
    cases hc.symm.trans hc'
    exact ⟨i, hd, hsite.symm, hcallee.symm⟩
  · rintro ⟨i, hd, hsite, hcallee⟩
    obtain ⟨f, hf, hread⟩ := h.exists_of_derivable hdone hd
    obtain ⟨e, rfl, hi⟩ := State.of_read_call hread
    obtain ⟨c, hc, hs, hm⟩ := contextCall_of_invocation hi
    refine ⟨c, ⟨e, hf, hc⟩, ?_⟩
    rw [hs, hm, hsite, hcallee]

theorem mem_reachableMethods {m : MethodId} :
    m ∈ r.reachableMethods ↔ ∃ t, Derivable p σ (.reachable t m) := by
  simp only [mem_reachableMethods_iff]
  constructor
  · rintro ⟨n, hn, clone, hclone, rfl⟩
    obtain ⟨J, hJ, hd⟩ := h.derivable (f := .reachable n) (.inl hn)
    obtain ⟨clone', t, hclone', -, rfl⟩ := State.read_reachable_eq.1 hJ
    cases hclone.symm.trans hclone'
    exact ⟨t, hd⟩
  · rintro ⟨t, hd⟩
    obtain ⟨f, hf, hread⟩ := h.exists_of_derivable hdone hd
    obtain ⟨n, clone, rfl, hclone, -, hm⟩ := State.of_read_reachable hread
    exact ⟨n, hf, clone, hclone, hm⟩

/-- Called methods are reachable. -/
theorem callee_mem_reachableMethods {x : CallPair} (hx : x ∈ r.calls) :
    x.callee ∈ r.reachableMethods := by
  obtain ⟨i, hd, -, hcallee⟩ := (mem_calls h hdone).1 hx
  have hreach : Derivable p σ (.reachable i.calleeTrail i.callee) := .linked hd .reachable
  exact (mem_reachableMethods h hdone).2 ⟨_, hcallee ▸ hreach⟩

end

theorem mayAlias_iff {v w : VarId} :
    r.mayAlias v w = true ↔ ∃ o, o ∈ r.pointsTo v ∧ o ∈ r.pointsTo w :=
  SortedSet.intersects_iff

end Result

end ProgramFlow.PointsTo
