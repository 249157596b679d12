import ProgramFlow.PointsTo.Result
import ProgramFlow.Proofs.Collection.Numbering
import ProgramFlow.Proofs.Outcome
import ProgramFlow.Proofs.PointsTo.Pointers
import ProgramFlow.Proofs.PointsTo.Resolution
/-!
The tables that are read off the final state of a points-to analysis. The maps hold what the
pointers of each holder point to together, and after a run that succeeds no row is missing.
-/
namespace ProgramFlow.PointsTo

open Outcome

namespace Elements

/-- The pointer without its context is the holder. -/
inductive BelongsTo (e : Elements) : Pointer → Holder → Prop
  | var {k v} : BelongsTo e (.var k v) (.var v)
  | staticField {f} : BelongsTo e (.staticField f) (.staticField f)
  | instanceField {c f o} (ho : e.objectOf c = .ok o) :
    BelongsTo e (.instanceField c f) (.instanceField ⟨o, f⟩)
  | arrayElement {c o} (ho : e.objectOf c = .ok o) : BelongsTo e (.arrayElement c) (.arrayElement o)

variable {e : Elements} {h h' : Holdings} {a : Holder} {c : ObjCloneId} {o : ObjId}

theorem objectOf_eq_ok_iff :
    e.objectOf c = .ok o ↔ ∃ clone, e.objects.get? c = some clone ∧ clone.obj = o := by
  simp only [objectOf, bind_eq_ok, Numbering.row_eq_ok_iff, pure_eq, Except.ok.injEq]

theorem methodOf_eq_ok_iff {n : MethodCloneId} {m : MethodId} :
    e.methodOf n = .ok m ↔ ∃ clone, e.methods.get? n = some clone ∧ clone.method = m := by
  simp only [methodOf, bind_eq_ok, Numbering.row_eq_ok_iff, pure_eq, Except.ok.injEq]

/-! ## Holders -/

theorem holder_eq_ok_iff {x : Pointer} : e.holder x = .ok a ↔ e.BelongsTo x a := by
  constructor
  · intro hx
    cases x with
    | var k v =>
      cases hx
      exact .var
    | staticField f =>
      cases hx
      exact .staticField
    | instanceField c f =>
      obtain ⟨o, ho, hx⟩ := bind_eq_ok.1 hx
      cases hx
      exact .instanceField ho
    | arrayElement c =>
      obtain ⟨o, ho, hx⟩ := bind_eq_ok.1 hx
      cases hx
      exact .arrayElement ho
  · intro hx
    cases hx with
    | var => rfl
    | staticField => rfl
    | instanceField ho => exact bind_eq_ok.2 ⟨_, ho, rfl⟩
    | arrayElement ho => exact bind_eq_ok.2 ⟨_, ho, rfl⟩

/-! ## The maps -/

/-- The objects that a pointer brings to a holder. -/
def Brings (e : Elements) (row : Pointer × ObjSet) (a : Holder) (o : ObjId) : Prop :=
  e.holder row.1 = .ok a ∧ ∃ c ∈ row.2, e.objectOf c = .ok o

theorem mem_objects_of_gather {row : Pointer × ObjSet} (hg : e.gather h row = .ok h') :
    o ∈ h'.objects a ↔ o ∈ h.objects a ∨ e.Brings row a o := by
  obtain ⟨pointer, clones⟩ := row
  by_cases hempty : clones.isEmpty = true
  · rw [gather, if_pos hempty] at hg
    cases hg
    simp [Brings, SortedSet.isEmpty_iff.1 hempty]
  · rw [gather, if_neg hempty] at hg
    obtain ⟨objs, hobjs, hg⟩ := bind_eq_ok.1 hg
    obtain ⟨b, hb, hg⟩ := bind_eq_ok.1 hg
    cases hg
    have hmem : o ∈ SortedSet.ofList objs ↔ ∃ c ∈ clones, e.objectOf c = .ok o := by
      simp only [SortedSet.mem_ofList, mem_of_mapM hobjs, SortedSet.mem_toList]
    rw [Holdings.objects_unite, Brings, hb, Except.ok.injEq, ← hmem]
    by_cases hab : a = b
    · subst hab
      simp
    · simp [hab, Ne.symm hab]

/-- A run over rows adds what each of them brings. -/
theorem mem_objects_of_foldlM {rows : List (Pointer × ObjSet)}
    (hg : rows.foldlM e.gather h = .ok h') :
    o ∈ h'.objects a ↔ o ∈ h.objects a ∨ ∃ row ∈ rows, e.Brings row a o := by
  induction rows generalizing h with
  | nil =>
    cases hg
    simp
  | cons row rows ih =>
    rw [List.foldlM_cons] at hg
    obtain ⟨k, hk, hg⟩ := bind_eq_ok.1 hg
    rw [ih hg, mem_objects_of_gather hk, List.exists_mem_cons_iff, or_assoc]

theorem mem_objects_of_holdings (hh : e.holdings = .ok h) :
    o ∈ h.objects a ↔ ∃ row ∈ e.pointers.rows, e.Brings row a o := by
  have hnone : o ∉ ({} : Holdings).objects a := by
    cases a <;> exact SortedSet.not_mem_empty
  rw [mem_objects_of_foldlM hh, or_iff_right hnone]

theorem exists_gather (h : Holdings) {row : Pointer × ObjSet} (ha : ∃ a, e.holder row.1 = .ok a)
    (ho : ∀ c ∈ row.2, ∃ o, e.objectOf c = .ok o) : ∃ k, e.gather h row = .ok k := by
  obtain ⟨a, ha⟩ := ha
  obtain ⟨objs, hobjs⟩ := exists_mapM (l := row.2.toList) ho
  by_cases hempty : row.2.isEmpty = true
  · exact ⟨h, if_pos hempty⟩
  · exact ⟨h.unite (.ofList objs) a, by simp [gather, hempty, hobjs, ha]⟩

theorem exists_holdings (hrows : ∀ row ∈ e.pointers.rows, (∃ a, e.holder row.1 = .ok a) ∧
    ∀ c ∈ row.2, ∃ o, e.objectOf c = .ok o) : ∃ h, e.holdings = .ok h := by
  have hstep : ∀ h, ∀ row ∈ e.pointers.rows, ∃ k, e.gather h row = .ok k ∧ True := by
    intro h row hrow
    obtain ⟨k, hk⟩ := exists_gather h (hrows row hrow).1 (hrows row hrow).2
    exact ⟨k, hk, trivial⟩
  obtain ⟨h, hh, -⟩ := foldlM_induction (Q := fun _ _ => True) (k := []) (b := {})
    (fun _ h _ => hstep h) trivial
  exact ⟨h, hh⟩

end Elements

/-! ## All tables -/

theorem State.tables_eq_ok_iff {s : State} {t : Tables} : s.tables = .ok t ↔
    s.elements.holdings = .ok t.holdings ∧
    s.calls.edges.toList.mapM s.elements.contextCall = .ok t.contextCalls ∧
    s.calls.reachable.toList.mapM s.elements.methodOf = .ok t.reachable ∧
    s.calls.entries.toList.mapM s.elements.methodOf = .ok t.entries := by
  simp only [State.tables, bind_eq_ok, pure_eq, Except.ok.injEq]
  constructor
  · intro h
    obtain ⟨_, hh, _, hc, _, hr, _, he, rfl⟩ := h
    exact ⟨hh, hc, hr, he⟩
  · intro h
    obtain ⟨hh, hc, hr, he⟩ := h
    exact ⟨_, hh, _, hc, _, hr, _, he, rfl⟩

variable {s : State}

theorem State.HasObject.exists_objectOf {c : ObjCloneId} (hc : s.HasObject c) :
    ∃ o, s.elements.objectOf c = .ok o := by
  obtain ⟨clone, hclone⟩ := hc
  exact ⟨_, Elements.objectOf_eq_ok_iff.2 ⟨clone, hclone, rfl⟩⟩

theorem State.HasMethod.exists_methodOf {n : MethodCloneId} (hn : s.HasMethod n) :
    ∃ m, s.elements.methodOf n = .ok m := by
  obtain ⟨clone, hclone⟩ := hn
  exact ⟨_, Elements.methodOf_eq_ok_iff.2 ⟨clone, hclone, rfl⟩⟩

namespace State.Resolved

variable (h : s.Resolved)
include h

theorem exists_holder {x : PointerId} {pointer : Pointer}
    (hx : s.elements.pointer? x = some pointer) : ∃ a, s.elements.holder pointer = .ok a := by
  have hparts := h.pointers hx
  cases pointer with
  | var c v => exact ⟨_, rfl⟩
  | staticField f => exact ⟨_, rfl⟩
  | instanceField c f =>
    obtain ⟨o, ho⟩ := State.HasObject.exists_objectOf hparts
    exact ⟨_, Elements.holder_eq_ok_iff.2 (.instanceField ho)⟩
  | arrayElement c =>
    obtain ⟨o, ho⟩ := State.HasObject.exists_objectOf hparts
    exact ⟨_, Elements.holder_eq_ok_iff.2 (.arrayElement ho)⟩

theorem exists_contextCall {e : CallEdge} (he : e ∈ s.calls.edges.toList) :
    ∃ c, s.elements.contextCall e = .ok c := by
  obtain ⟨⟨site, hsite⟩, callee, hcallee⟩ := h.edges he
  obtain ⟨⟨x, hx⟩, caller, hcaller⟩ := h.callSites hsite
  obtain ⟨y, hy⟩ := h.methods hcallee
  rw [← Numbering.row_eq_ok_iff] at hsite hcallee hx hcaller hy
  refine ⟨⟨e.kind, site.site, caller.method, x, callee.method, y⟩, ?_⟩
  simp only [Elements.contextCall, hsite, hcaller, hcallee, hx, hy, ok_bind, pure_eq]

/-- No row is missing where every number names something. -/
theorem exists_tables : ∃ t, s.tables = .ok t := by
  obtain ⟨holdings, hh⟩ : ∃ holdings, s.elements.holdings = .ok holdings := by
    apply Elements.exists_holdings
    intro row hrow
    obtain ⟨pointer, clones⟩ := row
    obtain ⟨x, hx, rfl⟩ := h.inStep.mem_rows.1 hrow
    exact ⟨h.exists_holder hx, fun c hc => (h.sets (x := x) (.inl hc)).exists_objectOf⟩
  obtain ⟨calls, hc⟩ := exists_mapM (l := s.calls.edges.toList)
    fun e he => h.exists_contextCall he
  obtain ⟨reachable, hr⟩ := exists_mapM (l := s.calls.reachable.toList)
    fun n hn => (h.reachable hn).exists_methodOf
  obtain ⟨entries, he⟩ := exists_mapM (l := s.calls.entries.toList)
    fun n hn => (h.entries hn).exists_methodOf
  exact ⟨⟨holdings, calls, reachable, entries⟩, State.tables_eq_ok_iff.2 ⟨hh, hc, hr, he⟩⟩

theorem exists_ofState (σ : Sensitivity) : ∃ r, Result.ofState σ s = .ok r := by
  obtain ⟨t, ht⟩ := h.exists_tables
  exact ⟨⟨σ, s, t, ht⟩, Result.ofState_eq_ok_iff.2 ⟨rfl, rfl⟩⟩

end State.Resolved

end ProgramFlow.PointsTo
