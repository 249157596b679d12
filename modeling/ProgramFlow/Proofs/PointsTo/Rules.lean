import Mathlib.Data.Set.Insert
import ProgramFlow.PointsTo.Sensitivity
import ProgramFlow.Program.Dispatch
import ProgramFlow.Proofs.Program.Layout
/-!
The inference rules of inclusion-based points-to analysis in contexts. They speak of allocation
sites and call sites, and know nothing of numbers, queues or the order of discovery.
-/
namespace ProgramFlow.PointsTo

/-- An element of a context; an object is known by the site that allocates it. -/
inductive Mark
  | callSite (site : StmtId)
  | object (site : StmtId)
  | type (cls : ClassId)
  deriving DecidableEq

/-- A context, its latest mark last. -/
abbrev Trail := List Mark

/-- The objects that a site allocates in a heap context. -/
structure Location where
  trail : Trail
  site : StmtId
  deriving DecidableEq

inductive Slot
  | var (trail : Trail) (v : VarId)
  | staticField (f : FieldId)
  | instanceField (base : Location) (f : FieldId)
  | arrayElement (base : Location)
  deriving DecidableEq

/-- A call from a method in one context to a method in another. -/
structure Invocation where
  kind : CallKind
  site : StmtId
  caller : MethodId
  callerTrail : Trail
  callee : MethodId
  calleeTrail : Trail
  deriving DecidableEq

inductive Judgement
  | reachable (trail : Trail) (m : MethodId)
  | pointsTo (slot : Slot) (object : Location)
  /-- What the first slot points to, the second points to. -/
  | flow (source target : Slot)
  | call (i : Invocation)
  deriving DecidableEq

namespace Sensitivity

variable (σ : Sensitivity)

/-- The context of a method called without a receiver. -/
def staticTrail (caller : Trail) (site : StmtId) : Trail :=
  match σ with
  | insensitive => []
  | callSite k => takeLast k (caller ++ [.callSite site])
  | object _ | type _ => caller

/-- The context of a method called on an object that a method of class `owner` allocates. -/
def instanceTrail (caller : Trail) (site : StmtId) (receiver : Location) (owner : ClassId) :
    Trail :=
  match σ with
  | insensitive => []
  | callSite k => takeLast k (caller ++ [.callSite site])
  | object k => takeLast k (receiver.trail ++ [.object receiver.site])
  | type k => takeLast k (receiver.trail ++ [.type owner])

/-- The context of an object allocated in a method. -/
def heapTrail (method : Trail) : Trail :=
  match σ with
  | insensitive => []
  | callSite k | object k | type k => takeLast (k - 1) method

end Sensitivity

end PointsTo

namespace Program

variable {p : Program} {b : VarId} {s : StmtId}

theorem mainMethod_eq_ok {m : MethodId} : p.mainMethod = .ok m ↔ p.main = some m := by
  cases h : p.main <;> simp [mainMethod, h]

theorem mem_fieldLoads {lhs : VarId} {f : FieldId} : (s, lhs, f) ∈ p.fieldLoads b ↔
    p.instr s = .ok (.loadField lhs (.instance b f)) := by
  simp only [fieldLoads, List.mem_filterMap, Prod.exists, mem_numbered, instr_eq_ok]
  constructor
  · rintro ⟨s, x, hx, h⟩
    split at h <;> grind
  · grind

theorem mem_fieldStores {f : FieldId} {rhs : VarId} : (s, f, rhs) ∈ p.fieldStores b ↔
    p.instr s = .ok (.storeField (.instance b f) rhs) := by
  simp only [fieldStores, List.mem_filterMap, Prod.exists, mem_numbered, instr_eq_ok]
  constructor
  · rintro ⟨s, x, hx, h⟩
    split at h <;> grind
  · grind

theorem mem_arrayLoads {lhs : VarId} : (s, lhs) ∈ p.arrayLoads b ↔
    ∃ access, access.base = b ∧ p.instr s = .ok (.loadArray lhs access) := by
  simp only [arrayLoads, List.mem_filterMap, Prod.exists, mem_numbered, instr_eq_ok]
  constructor
  · rintro ⟨s, x, hx, h⟩
    split at h <;> grind
  · grind

theorem mem_arrayStores {rhs : VarId} : (s, rhs) ∈ p.arrayStores b ↔
    ∃ access, access.base = b ∧ p.instr s = .ok (.storeArray access rhs) := by
  simp only [arrayStores, List.mem_filterMap, Prod.exists, mem_numbered, instr_eq_ok]
  constructor
  · rintro ⟨s, x, hx, h⟩
    split at h <;> grind
  · grind

theorem mem_callsOn {call : Call} : (s, call) ∈ p.callsOn b ↔
    call.receiver = some b ∧ p.instr s = .ok (.invoke call) := by
  simp only [callsOn, List.mem_filterMap, Prod.exists, mem_numbered, instr_eq_ok]
  constructor
  · rintro ⟨s, x, hx, h⟩
    split at h <;> grind
  · grind

end Program

/-- The record describes the objects that its site allocates. -/
def Program.Allocates (p : Program) (o : PointsTo.Obj) : Prop :=
  ∃ d lhs, p.method o.container = .ok d ∧ d.owner = o.owner ∧ o.site ∈ d.body ∧
    p.instr o.site = .ok (.new lhs o.ty)

theorem Program.Allocates.unique {p : Program} (hl : p.Layout) {o o' : PointsTo.Obj}
    (h : p.Allocates o) (h' : p.Allocates o') (hs : o.site = o'.site) : o = o' := by
  obtain ⟨site, ty, container, owner⟩ := o
  obtain ⟨site', ty', container', owner'⟩ := o'
  obtain ⟨d, lhs, hd, rfl, hb, hi⟩ := h
  obtain ⟨d', lhs', hd', rfl, hb', hi'⟩ := h'
  cases hs
  cases Program.Contains.unique hl ⟨d, hd, hb, hi⟩ ⟨d', hd', hb', hi'⟩
  cases hd.symm.trans hd'
  cases hi.symm.trans hi'
  rfl

namespace PointsTo

section

variable (p : Program) (σ : Sensitivity)

/-- What a statement adds in each context in which its method is reachable. -/
inductive Immediate (t : Trail) (m : MethodId) (s : StmtId) : Instr → Judgement → Prop
  | new {lhs ty} : Immediate t m s (.new lhs ty) (.pointsTo (.var t lhs) ⟨σ.heapTrail t, s⟩)
  | copy {lhs rhs} : Immediate t m s (.copy lhs rhs) (.flow (.var t rhs) (.var t lhs))
  | cast {lhs operand ty} :
    Immediate t m s (.cast lhs operand ty) (.flow (.var t operand) (.var t lhs))
  | load {lhs f} :
    Immediate t m s (.loadField lhs (.static f)) (.flow (.staticField f) (.var t lhs))
  | store {f rhs} :
    Immediate t m s (.storeField (.static f) rhs) (.flow (.var t rhs) (.staticField f))
  | invoke {call callee} (hk : call.kind = .static) (hc : p.resolve none call = .ok (some callee)) :
    Immediate t m s (.invoke call) (.call ⟨call.kind, s, m, t, callee, σ.staticTrail t s⟩)

/-- What a statement adds in a context for each object `l` of the variable it is based on. -/
inductive PerObject (t : Trail) (m : MethodId) (s : StmtId) (l : Location) :
    VarId → Instr → Judgement → Prop
  | load {lhs b f} :
    PerObject t m s l b (.loadField lhs (.instance b f)) (.flow (.instanceField l f) (.var t lhs))
  | store {b f rhs} :
    PerObject t m s l b (.storeField (.instance b f) rhs) (.flow (.var t rhs) (.instanceField l f))
  | loadElement {lhs access} :
    PerObject t m s l access.base (.loadArray lhs access) (.flow (.arrayElement l) (.var t lhs))
  | storeElement {access rhs} :
    PerObject t m s l access.base (.storeArray access rhs) (.flow (.var t rhs) (.arrayElement l))
  | invoke {call b o callee} (hr : call.receiver = some b) (ho : p.Allocates o)
    (hl : o.site = l.site) (hc : p.resolve o.class? call = .ok (some callee)) :
    PerObject t m s l b (.invoke call)
      (.call ⟨call.kind, s, m, t, callee, σ.instanceTrail t s l o.owner⟩)
  | receiver {call b o callee d this} (hr : call.receiver = some b) (ho : p.Allocates o)
    (hl : o.site = l.site) (hc : p.resolve o.class? call = .ok (some callee))
    (hd : p.method callee = .ok d) (ht : d.receiver = some this) :
    PerObject t m s l b (.invoke call) (.pointsTo (.var (σ.instanceTrail t s l o.owner) this) l)

/-- What a call adds: arguments flow to parameters and returned values to the result. -/
inductive Linked (i : Invocation) : Judgement → Prop
  | reachable : Linked i (.reachable i.calleeTrail i.callee)
  | argument {call d arg param} (hs : p.instr i.site = .ok (.invoke call))
    (hd : p.method i.callee = .ok d) (h : (arg, param) ∈ call.args.zip d.params) :
    Linked i (.flow (.var i.callerTrail arg) (.var i.calleeTrail param))
  | result {call d lhs v} (hs : p.instr i.site = .ok (.invoke call))
    (hd : p.method i.callee = .ok d) (hl : call.lhs = some lhs) (hv : v ∈ d.returns) :
    Linked i (.flow (.var i.calleeTrail v) (.var i.callerTrail lhs))

/-- The least solution of the rules. -/
inductive Derivable : Judgement → Prop
  | main {m} (h : p.main = some m) : Derivable (.reachable [] m)
  | immediate {t m s i J} (hm : Derivable (.reachable t m)) (hs : p.Contains m s i)
    (h : Immediate p σ t m s i J) : Derivable J
  | perObject {t m s i b l J} (hm : Derivable (.reachable t m)) (hs : p.Contains m s i)
    (hb : Derivable (.pointsTo (.var t b) l)) (h : PerObject p σ t m s l b i J) : Derivable J
  | linked {i J} (hi : Derivable (.call i)) (h : Linked p i J) : Derivable J
  | carried {a b l} (hf : Derivable (.flow a b)) (ha : Derivable (.pointsTo a l)) :
    Derivable (.pointsTo b l)

end

variable {p : Program} {σ : Sensitivity}

/-- A variable belongs to a method that is reachable in the context. -/
def Slot.Live (p : Program) (σ : Sensitivity) : Slot → Prop
  | .var t v => ∃ y, p.var v = .ok y ∧ Derivable p σ (.reachable t y.method)
  | _ => True

/-- Objects arrive only in variables of reachable methods, and only these make calls. -/
def Judgement.Live (p : Program) (σ : Sensitivity) : Judgement → Prop
  | .reachable .. => True
  | .pointsTo a _ => a.Live p σ
  | .flow _ b => b.Live p σ
  | .call i => Derivable p σ (.reachable i.callerTrail i.caller) ∧
      ∃ call, p.Contains i.caller i.site (.invoke call)

section

variable (hl : p.Layout) (hs : p.Scoped)
include hl hs

theorem live_of_contains {t : Trail} {m : MethodId} {s : StmtId} {i : Instr} {v : VarId}
    (hm : Derivable p σ (.reachable t m)) (hi : p.Contains m s i)
    (hv : v ∈ i.uses ∨ i.assigned? = some v) : (Slot.var t v).Live p σ := by
  obtain ⟨y, hy, rfl⟩ := hi.own hl hs hv
  exact ⟨y, hy, hm⟩

theorem Immediate.live {t : Trail} {m : MethodId} {s : StmtId} {i : Instr} {J : Judgement}
    (hm : Derivable p σ (.reachable t m)) (hi : p.Contains m s i) (h : Immediate p σ t m s i J) :
    J.Live p σ := by
  cases h with
  | new => exact live_of_contains hl hs hm hi (.inr rfl)
  | copy => exact live_of_contains hl hs hm hi (.inr rfl)
  | cast => exact live_of_contains hl hs hm hi (.inr rfl)
  | load => exact live_of_contains hl hs hm hi (.inr rfl)
  | store => trivial
  | invoke hk hc => exact ⟨hm, _, hi⟩

theorem PerObject.live {t : Trail} {m : MethodId} {s : StmtId} {i : Instr} {b : VarId}
    {l : Location} {J : Judgement} (hm : Derivable p σ (.reachable t m)) (hi : p.Contains m s i)
    (hb : Derivable p σ (.pointsTo (.var t b) l)) (h : PerObject p σ t m s l b i J) :
    J.Live p σ := by
  cases h with
  | load => exact live_of_contains hl hs hm hi (.inr rfl)
  | store => trivial
  | loadElement => exact live_of_contains hl hs hm hi (.inr rfl)
  | storeElement => trivial
  | invoke => exact ⟨hm, _, hi⟩
  | receiver hr ho hol hc hd ht =>
    obtain ⟨y, hy, rfl⟩ := hl.receiver hd ht
    exact ⟨y, hy, .linked (.perObject hm hi hb (.invoke hr ho hol hc)) .reachable⟩

theorem Derivable.live {J : Judgement} (h : Derivable p σ J) : J.Live p σ := by
  induction h with
  | main => trivial
  | immediate hm hi h => exact h.live hl hs hm hi
  | perObject hm hi hb h => exact h.live hl hs hm hi hb
  | linked hi h ih =>
    cases h with
    | reachable => trivial
    | argument hc hd ha =>
      obtain ⟨y, hy, hm⟩ := hl.params hd (List.of_mem_zip ha).2
      exact ⟨y, hy, hm ▸ .linked hi .reachable⟩
    | result hc hd hlhs hv =>
      obtain ⟨hm, call, hcall⟩ := ih
      obtain ⟨d, hd, hb, hcall'⟩ := hcall
      cases hc.symm.trans hcall'
      exact live_of_contains hl hs hm ⟨d, hd, hb, hc⟩ (.inr hlhs)
  | carried hf _ ihf _ => exact ihf

end

/-- What one judgement adds by a rule that needs no second one about flow. -/
inductive Consequence (p : Program) (σ : Sensitivity) : Judgement → Judgement → Prop
  | immediate {t m s i J} (hs : p.Contains m s i) (h : Immediate p σ t m s i J) :
    Consequence p σ (.reachable t m) J
  | perObject {t m s i b l J} (hs : p.Contains m s i) (h : PerObject p σ t m s l b i J) :
    Consequence p σ (.pointsTo (.var t b) l) J
  | linked {i J} (h : Linked p i J) : Consequence p σ (.call i) J

/-- What a statement adds as soon as its method is reachable. -/
def added (p : Program) (σ : Sensitivity) (t : Trail) (m : MethodId) (s : StmtId) : Set Judgement :=
  {J | ∃ i, p.instr s = .ok i ∧ Immediate p σ t m s i J}

theorem consequence_reachable_iff {t : Trail} {m : MethodId} {d : MethodDecl} {J : Judgement}
    (hd : p.method m = .ok d) : Consequence p σ (.reachable t m) J ↔
      ∃ s ∈ d.body, J ∈ added p σ t m s := by
  constructor
  · rintro ⟨⟨d', hd', hs, hi⟩, h⟩
    cases hd.symm.trans hd'
    exact ⟨_, hs, _, hi, h⟩
  · rintro ⟨s, hs, i, hi, h⟩
    exact .immediate ⟨d, hd, hs, hi⟩ h

theorem consequence_call_iff {i : Invocation} {call : Call} {d : MethodDecl} {J : Judgement}
    (hs : p.instr i.site = .ok (.invoke call)) (hd : p.method i.callee = .ok d) :
    Consequence p σ (.call i) J ↔ J = .reachable i.calleeTrail i.callee ∨
      (∃ a ∈ call.args.zip d.params, J = .flow (.var i.callerTrail a.1) (.var i.calleeTrail a.2)) ∨
      ∃ lhs ∈ call.lhs, ∃ v ∈ d.returns,
        J = .flow (.var i.calleeTrail v) (.var i.callerTrail lhs) := by
  constructor
  · intro h
    cases h with
    | linked h =>
      cases h with
      | reachable => exact .inl rfl
      | argument hs' hd' ha =>
        cases hs.symm.trans hs'
        cases hd.symm.trans hd'
        exact .inr (.inl ⟨_, ha, rfl⟩)
      | result hs' hd' hlhs hv =>
        cases hs.symm.trans hs'
        cases hd.symm.trans hd'
        exact .inr (.inr ⟨_, hlhs, _, hv, rfl⟩)
  · rintro (rfl | ⟨⟨arg, param⟩, ha, rfl⟩ | ⟨lhs, hlhs, v, hv, rfl⟩)
    · exact .linked .reachable
    · exact .linked (.argument hs hd ha)
    · exact .linked (.result hs hd hlhs hv)

/-- What a call adds for an object of its receiver. -/
def dispatched (p : Program) (σ : Sensitivity) (t : Trail) (b : VarId) (l : Location) (s : StmtId)
    (call : Call) : Set Judgement :=
  {J | ∃ m, p.Contains m s (.invoke call) ∧ PerObject p σ t m s l b (.invoke call) J}

theorem not_mem_dispatched (hl : p.Layout) {t : Trail} {b : VarId} {l : Location} {s : StmtId}
    {call : Call} {o : Obj} (ho : p.Allocates o) (hol : o.site = l.site)
    (hc : p.resolve o.class? call = .ok none) (J : Judgement) :
    J ∉ dispatched p σ t b l s call := by
  rintro ⟨m, hm, h⟩
  cases h with
  | invoke hr ho' hol' hc' =>
    cases ho.unique hl ho' (hol.trans hol'.symm)
    cases hc.symm.trans hc'
  | receiver hr ho' hol' hc' =>
    cases ho.unique hl ho' (hol.trans hol'.symm)
    cases hc.symm.trans hc'

theorem mem_dispatched_iff (hl : p.Layout) {t : Trail} {b : VarId} {l : Location} {m : MethodId}
    {s : StmtId} {call : Call} {o : Obj} {callee : MethodId} {d : MethodDecl}
    (hm : p.Contains m s (.invoke call)) (hr : call.receiver = some b) (ho : p.Allocates o)
    (hol : o.site = l.site) (hc : p.resolve o.class? call = .ok (some callee))
    (hd : p.method callee = .ok d) {J : Judgement} : J ∈ dispatched p σ t b l s call ↔
      J = .call ⟨call.kind, s, m, t, callee, σ.instanceTrail t s l o.owner⟩ ∨
      ∃ this ∈ d.receiver, J = .pointsTo (.var (σ.instanceTrail t s l o.owner) this) l := by
  constructor
  · rintro ⟨m', hm', h⟩
    obtain rfl := hm.unique hl hm'
    cases h with
    | invoke hr ho' hol' hc' =>
      cases ho.unique hl ho' (hol.trans hol'.symm)
      cases hc.symm.trans hc'
      exact .inl rfl
    | receiver hr ho' hol' hc' hd' ht =>
      cases ho.unique hl ho' (hol.trans hol'.symm)
      cases hc.symm.trans hc'
      cases hd.symm.trans hd'
      exact .inr ⟨_, ht, rfl⟩
  · rintro (rfl | ⟨this, ht, rfl⟩)
    · exact ⟨m, hm, .invoke hr ho hol hc⟩
    · exact ⟨m, hm, .receiver hr ho hol hc hd ht⟩

theorem consequence_pointsTo_iff (hl : p.Layout) {t : Trail} {b : VarId} {l : Location}
    {J : Judgement} : Consequence p σ (.pointsTo (.var t b) l) J ↔
      (∃ x ∈ p.fieldStores b, J = .flow (.var t x.2.2) (.instanceField l x.2.1)) ∨
      (∃ x ∈ p.fieldLoads b, J = .flow (.instanceField l x.2.2) (.var t x.2.1)) ∨
      (∃ x ∈ p.arrayStores b, J = .flow (.var t x.2) (.arrayElement l)) ∨
      (∃ x ∈ p.arrayLoads b, J = .flow (.arrayElement l) (.var t x.2)) ∨
      ∃ x ∈ p.callsOn b, J ∈ dispatched p σ t b l x.1 x.2 := by
  constructor
  · rintro (_ | ⟨⟨d, hd, hs, hi⟩, h⟩ | _)
    cases h with
    | store => exact .inl ⟨_, Program.mem_fieldStores.2 hi, rfl⟩
    | load => exact .inr (.inl ⟨_, Program.mem_fieldLoads.2 hi, rfl⟩)
    | storeElement => exact .inr (.inr (.inl ⟨_, Program.mem_arrayStores.2 ⟨_, rfl, hi⟩, rfl⟩))
    | loadElement =>
      exact .inr (.inr (.inr (.inl ⟨_, Program.mem_arrayLoads.2 ⟨_, rfl, hi⟩, rfl⟩)))
    | invoke hr ho hl hc =>
      exact .inr (.inr (.inr (.inr ⟨_, Program.mem_callsOn.2 ⟨hr, hi⟩, _, ⟨d, hd, hs, hi⟩,
        .invoke hr ho hl hc⟩)))
    | receiver hr ho hl hc hd' ht =>
      exact .inr (.inr (.inr (.inr ⟨_, Program.mem_callsOn.2 ⟨hr, hi⟩, _, ⟨d, hd, hs, hi⟩,
        .receiver hr ho hl hc hd' ht⟩)))
  · rintro (⟨⟨s, f, rhs⟩, hx, rfl⟩ | ⟨⟨s, lhs, f⟩, hx, rfl⟩ | ⟨⟨s, rhs⟩, hx, rfl⟩ |
      ⟨⟨s, lhs⟩, hx, rfl⟩ | ⟨⟨s, call⟩, hx, m, hs, h⟩)
    · obtain ⟨m, hs⟩ := hl.contains (Program.mem_fieldStores.1 hx) rfl
      exact .perObject hs .store
    · obtain ⟨m, hs⟩ := hl.contains (Program.mem_fieldLoads.1 hx) rfl
      exact .perObject hs .load
    · obtain ⟨access, rfl, hi⟩ := Program.mem_arrayStores.1 hx
      obtain ⟨m, hs⟩ := hl.contains hi rfl
      exact .perObject hs .storeElement
    · obtain ⟨access, rfl, hi⟩ := Program.mem_arrayLoads.1 hx
      obtain ⟨m, hs⟩ := hl.contains hi rfl
      exact .perObject hs .loadElement
    · exact .perObject hs h

theorem PerObject.mem_uses {t : Trail} {m : MethodId} {s : StmtId} {i : Instr} {b : VarId}
    {l : Location} {J : Judgement} (h : PerObject p σ t m s l b i J) : b ∈ i.uses := by
  cases h <;> simp_all [Instr.uses, FieldAccess.base?]

/-- An object of a variable shows that the method of the variable is reachable. -/
theorem Derivable.consequence (hl : p.Layout) (hs : p.Scoped) {J J' : Judgement}
    (hJ : Derivable p σ J) (h : Consequence p σ J J') : Derivable p σ J' := by
  cases h with
  | immediate hi h => exact .immediate hJ hi h
  | linked h => exact .linked hJ h
  | perObject hi h =>
    obtain ⟨y, hy, hm⟩ := hJ.live hl hs
    obtain ⟨y', hy', rfl⟩ := hi.own hl hs (.inl h.mem_uses)
    cases hy.symm.trans hy'
    exact .perObject hm hi hJ h

/-- A class of judgements that the rules do not leave. The objects of a variable open the statements
based on it whether or not the method of the variable is reachable. -/
structure Saturated (p : Program) (σ : Sensitivity) (D : Judgement → Prop) : Prop where
  main : ∀ {m}, p.main = some m → D (.reachable [] m)
  consequence : ∀ {J J'}, D J → Consequence p σ J J' → D J'
  carried : ∀ {a b l}, D (.flow a b) → D (.pointsTo a l) → D (.pointsTo b l)

theorem Saturated.of_derivable {D : Judgement → Prop} (hD : Saturated p σ D) {J : Judgement}
    (h : Derivable p σ J) : D J := by
  induction h with
  | main hm => exact hD.main hm
  | immediate _ hs hJ ih => exact hD.consequence ih (.immediate hs hJ)
  | perObject _ hs _ hJ _ ih => exact hD.consequence ih (.perObject hs hJ)
  | linked _ hJ ih => exact hD.consequence ih (.linked hJ)
  | carried _ _ ihf iha => exact hD.carried ihf iha

theorem Derivable.saturated (hl : p.Layout) (hs : p.Scoped) : Saturated p σ (Derivable p σ) where
  main := .main
  consequence := Derivable.consequence hl hs
  carried := .carried

theorem saturated_true : Saturated p σ fun _ => True :=
  ⟨fun _ => trivial, fun _ _ => trivial, fun _ _ => trivial⟩

end PointsTo

end ProgramFlow
