import ProgramFlow.Proofs.PointsTo.CallPaths
/-!
Contexts mean what the strategy of the analysis says, in every state that a solver comes to. Call
sites are the last ones on a path of calls from the main method; objects and classes are those of
the receivers.
-/
namespace ProgramFlow.PointsTo

/-- The contexts of a state mean what the strategy says. -/
structure State.Follows (s : State) (p : Program) (σ : Sensitivity) : Prop where
  methods : ∀ {n clone}, s.elements.methods.get? n = some clone →
    ∃ x, s.elements.contexts.get? clone.context = some x ∧ σ.Fits σ.depth x
  objects : ∀ {o clone}, s.elements.objects.get? o = some clone →
    ∃ x, s.elements.contexts.get? clone.context = some x ∧ σ.Fits (σ.depth - 1) x
  /-- Recorded calls lead from the main method to each reachable clone, whose context is made of
  the last call sites if the strategy follows them. -/
  paths : ∀ {n}, n ∈ s.calls.reachable.toList → ∃ main path, s.IsMain p main ∧
    s.CallPath main path n ∧ ∀ k, σ = .callSite k → ∃ clone,
      s.elements.methods.get? n = some clone ∧
      s.elements.contexts.get? clone.context = some ⟨takeLast k (path.map .callSite)⟩
  /-- What the variable of a receiver points to in a context has made this context. -/
  receivers : ∀ {x c this o}, s.elements.pointer? x = some (.var c this) → p.IsReceiver this →
    o ∈ s.elements.objectsOf x → ∃ clone obj heapContext, s.elements.objects.get? o = some clone ∧
      s.heap.get? clone.obj = some obj ∧ p.Allocates obj ∧
      s.elements.contexts.get? clone.context = some heapContext ∧
      (∀ k, σ = .object k → s.elements.contexts.get? c =
        some ⟨takeLast k (heapContext.elements ++ [.object clone.obj])⟩) ∧
      (∀ k, σ = .type k → s.elements.contexts.get? c =
        some ⟨takeLast k (heapContext.elements ++ [.type obj.owner])⟩)
  /-- With one object of context an instance method has one receiver in each context. -/
  receiver_unique : σ = .object 1 → ∀ {x c this o o'},
    s.elements.pointer? x = some (.var c this) → p.IsReceiver this →
    o ∈ s.elements.objectsOf x → o' ∈ s.elements.objectsOf x → o = o'

variable {p : Program} {σ : Sensitivity} {D : Judgement → Prop} {s : State} {due : Set Judgement}

/-- A context with the marks of the appended context is the appended context. -/
theorem State.context_eq_append {c : ContextId} {x : Context} {t : Trail} {e : ContextElement}
    {y : Mark} {k : Nat} (hx : x.elements.map s.mark = t.map some) (he : s.mark e = some y)
    (hc : s.trail c = some (takeLast k (t ++ [y]))) :
    s.elements.contexts.get? c = some (x.append e k) :=
  State.contexts_of_trail hc (State.marks_append hx he k)

/-- Where one element makes the context of a method, objects have none. -/
theorem State.Anchored.heapContext_eq_empty {due : Set MethodClone} (h : s.Anchored p σ due)
    (hσ : σ.depth = 1) {o : ObjCloneId} {clone : ObjClone} {x : Context}
    (ho : s.elements.objects.get? o = some clone)
    (hx : s.elements.contexts.get? clone.context = some x) : x = .empty := by
  obtain ⟨x', hx', hfits⟩ := h.objects ho
  cases hx.symm.trans hx'
  obtain ⟨l⟩ := x
  have hlength : l.length ≤ σ.depth - 1 := hfits.depth
  rw [hσ] at hlength
  rw [List.length_eq_zero_iff.1 (Nat.le_zero.1 hlength)]
  rfl

namespace Balanced

/-- Each call appends its site to the context of the caller. -/
theorem context_of_callPath (h : Balanced p σ D s due) {k : Nat} (hσ : σ = .callSite k)
    (hD : ∀ {J}, D J → J.Selected p σ) {main n : MethodCloneId} {path : List StmtId}
    (hm : s.IsMain p main) (hp : s.CallPath main path n) : ∃ clone,
      s.elements.methods.get? n = some clone ∧
      s.elements.contexts.get? clone.context = some ⟨takeLast k (path.map .callSite)⟩ := by
  induction hp with
  | refl =>
    obtain ⟨clone, hn, hc, -⟩ := hm
    exact ⟨clone, hn, by simpa [Context.empty] using hc⟩
  | @call path e site _ he hsite ih =>
    obtain ⟨caller, hcaller, hx⟩ := ih
    obtain ⟨J, hread, hJ⟩ := h.derivable (f := .call e) (.inl he)
    obtain ⟨i, hi, rfl⟩ := State.read_call_eq.1 hread
    obtain ⟨site', caller', callee, hsite', hcaller', hcallee, -, ht, ht', -, hs, -⟩ :=
      State.invocation_eq_some_iff.1 hi
    cases hsite.symm.trans hsite'
    cases hcaller.symm.trans hcaller'
    obtain ⟨x, hx', hmarks⟩ := State.trail_eq_some_iff.1 ht
    cases hx.symm.trans hx'
    rw [hD hJ k hσ, ← hs] at ht'
    have hcontext := State.context_eq_append hmarks (e := .callSite site.site) rfl ht'
    refine ⟨callee, hcallee, hcontext.trans ?_⟩
    rw [Context.append, takeLast_concat (Nat.le_succ k), List.map_append, List.map_singleton]

theorem receiver_context (h : Balanced p σ D s due) (hl : p.Layout)
    (hD : ∀ {J}, D J → J.Selected p σ) {x : PointerId} {c : ContextId} {this : VarId}
    {o : ObjCloneId} (hx : s.elements.pointer? x = some (.var c this)) (hthis : p.IsReceiver this)
    (ho : o ∈ s.elements.objectsOf x) : ∃ clone obj heapContext,
      s.elements.objects.get? o = some clone ∧ s.heap.get? clone.obj = some obj ∧
      p.Allocates obj ∧ s.elements.contexts.get? clone.context = some heapContext ∧
      (∀ k, σ = .object k → s.elements.contexts.get? c =
        some ⟨takeLast k (heapContext.elements ++ [.object clone.obj])⟩) ∧
      (∀ k, σ = .type k → s.elements.contexts.get? c =
        some ⟨takeLast k (heapContext.elements ++ [.type obj.owner])⟩) := by
  obtain ⟨J, hread, hJ⟩ := h.derivable (f := .pointsTo x o) (.inl ho)
  obtain ⟨a, l, ha, hloc, rfl⟩ := State.read_pointsTo_eq.1 hread
  obtain ⟨r, hr, ha⟩ := State.slot_eq_some_iff.1 ha
  cases hx.symm.trans hr
  obtain ⟨t, ht, rfl⟩ := Option.map_eq_some_iff.1 ha
  obtain ⟨clone, obj, hclone, hobj, hheap, hsite⟩ := State.location_eq_some_iff.1 hloc
  obtain ⟨heapContext, hcontext, hmarks⟩ := State.trail_eq_some_iff.1 hheap
  obtain ⟨caller, site, obj', halloc, hsite', rfl⟩ := hD hJ hthis
  cases (h.allocates hobj).unique hl halloc (hsite.trans hsite'.symm)
  have hmark : s.mark (.object clone.obj) = some (.object l.site) :=
    Option.map_eq_some_iff.2 ⟨obj, hobj, congrArg Mark.object hsite⟩
  refine ⟨clone, obj, heapContext, hclone, hobj, halloc, hcontext, ?_, ?_⟩
  · rintro k rfl
    exact State.context_eq_append hmarks hmark ht
  · rintro k rfl
    exact State.context_eq_append hmarks (e := .type obj.owner) rfl ht

end Balanced

/-- In every state that a solver comes to, also by requests that fail, contexts mean what the
strategy says. -/
theorem Served.follows (hb : p.Built) (hs : p.Scoped) (hg : p.Grounded) (hr : p.FixedReceivers)
    {allowed : Except AnalysisError Unit → Prop} (h : Served p σ allowed s) : s.Follows p σ := by
  have hl := hb.layout
  have hanchored := h.anchored hl hs
  obtain ⟨due, hbalanced⟩ := (h.solvent hl hs.declared hg (Derivable.tame hl hs hg)).sane
  have hselected : ∀ {J}, Derivable p σ J → J.Selected p σ :=
    (saturated_selected hb hr).of_derivable
  have hreceivers := fun {x c this o} (hx : s.elements.pointer? x = some (.var c this)) hthis ho =>
    hbalanced.receiver_context (o := o) hl hselected hx hthis ho
  refine ⟨fun hn => ?_, hanchored.objects, fun hn => ?_, hreceivers, ?_⟩
  · obtain ⟨x, hx⟩ := hanchored.methods hn
    exact ⟨x, hx, hanchored.contexts hx⟩
  · obtain ⟨main, hmain, path, hp⟩ := hanchored.reachable hn
    have hm := hanchored.entries hmain
    exact ⟨main, path, hm, hp, fun k hσ => hbalanced.context_of_callPath hσ hselected hm hp⟩
  · rintro rfl x c this o o' hx hthis ho ho'
    obtain ⟨clone, obj, y, hclone, -, -, hy, hc, -⟩ := hreceivers hx hthis ho
    obtain ⟨clone', obj', y', hclone', -, -, hy', hc', -⟩ := hreceivers hx hthis ho'
    obtain rfl := hanchored.heapContext_eq_empty rfl hclone hy
    obtain rfl := hanchored.heapContext_eq_empty rfl hclone' hy'
    have hobj : clone.obj = clone'.obj := by
      simpa [takeLast, Context.empty] using (hc 1 rfl).symm.trans (hc' 1 rfl)
    have hcontext : clone.context = clone'.context := Numbering.get?_injective hy hy' rfl
    have hkey : clone = clone' := by
      cases clone
      cases clone'
      simp_all
    exact Numbering.get?_injective hclone hclone' hkey

/-- The sample's instance method is analysed once for its receiver. -/
theorem Served.follows_sample : ∃ s, (solve Program.sample (.object 1)).run .initial = (.ok (), s) ∧
    s.Follows Program.sample (.object 1) := by
  have hrun : ((solve Program.sample (.object 1)).run .initial).1 = .ok () := by decide +kernel
  obtain ⟨s, hs⟩ := SolverM.exists_run_eq hrun
  have hserved : Served Program.sample (.object 1) (fun _ => True) s :=
    .next .solve .initial hs trivial
  exact ⟨s, hs, Served.follows Program.sample_built Program.sample_scoped Program.sample_grounded
    Program.sample_fixedReceivers hserved⟩

end ProgramFlow.PointsTo
