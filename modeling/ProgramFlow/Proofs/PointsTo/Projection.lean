import Mathlib.Logic.Relation
import ProgramFlow.Proofs.PointsTo.Reading
/-!
Sensitivities that differ in how much of a context they keep. A map of contexts that commutes with
their selection takes each judgement that the finer rules derive to one that the coarser rules
derive.
-/
namespace ProgramFlow.PointsTo

theorem takeLast_takeLast {α : Type} {j k : Nat} (h : j ≤ k) (l : List α) :
    takeLast j (takeLast k l) = takeLast j l := by
  simp only [takeLast, List.drop_drop, List.length_drop]
  congr 1
  omega

/-- What falls out in front of a list is not seen behind it. -/
theorem takeLast_concat {α : Type} {j k : Nat} (h : k ≤ j + 1) (l : List α) (a : α) :
    takeLast k (takeLast j l ++ [a]) = takeLast k (l ++ [a]) := by
  have hdrop : takeLast j l ++ [a] = (l ++ [a]).drop (l.length - j) := by
    rw [takeLast, List.drop_append_of_le_length (Nat.sub_le ..)]
  rw [hdrop]
  simp only [takeLast, List.drop_drop, List.length_drop, List.length_append, List.length_singleton]
  congr 1
  omega

@[simp] theorem takeLast_nil {α : Type} (k : Nat) : takeLast k ([] : List α) = [] := by
  simp [takeLast]

/-- Maps of the contexts of methods and of objects that commute with how contexts are selected. -/
structure Projection (p : Program) (σ σ' : Sensitivity) where
  method : Trail → Trail
  heap : Trail → Trail
  method_nil : method [] = []
  method_staticTrail : ∀ t s, method (σ.staticTrail t s) = σ'.staticTrail (method t) s
  method_instanceTrail : ∀ t s l o, p.Allocates o → o.site = l.site →
    method (σ.instanceTrail t s l o.owner) =
      σ'.instanceTrail (method t) s ⟨heap l.trail, l.site⟩ o.owner
  heap_heapTrail : ∀ t, heap (σ.heapTrail t) = σ'.heapTrail (method t)

namespace Projection

variable {p : Program} {σ σ' : Sensitivity} (π : Projection p σ σ')

def location (l : Location) : Location := ⟨π.heap l.trail, l.site⟩

def slot : Slot → Slot
  | .var t v => .var (π.method t) v
  | .staticField f => .staticField f
  | .instanceField l f => .instanceField (π.location l) f
  | .arrayElement l => .arrayElement (π.location l)

def invocation (i : Invocation) : Invocation :=
  { i with callerTrail := π.method i.callerTrail, calleeTrail := π.method i.calleeTrail }

def judgement : Judgement → Judgement
  | .reachable t m => .reachable (π.method t) m
  | .pointsTo a l => .pointsTo (π.slot a) (π.location l)
  | .flow a b => .flow (π.slot a) (π.slot b)
  | .call i => .call (π.invocation i)

variable {t : Trail} {m : MethodId} {s : StmtId} {i : Instr} {b : VarId} {l : Location}
  {J : Judgement}

theorem immediate (h : Immediate p σ t m s i J) :
    Immediate p σ' (π.method t) m s i (π.judgement J) := by
  cases h with
  | new =>
    simp only [judgement, slot, location, π.heap_heapTrail]
    exact .new
  | copy => exact .copy
  | cast => exact .cast
  | load => exact .load
  | store => exact .store
  | invoke hk hc =>
    simp only [judgement, invocation, π.method_staticTrail]
    exact .invoke hk hc

theorem perObject (h : PerObject p σ t m s l b i J) :
    PerObject p σ' (π.method t) m s (π.location l) b i (π.judgement J) := by
  cases h with
  | load => exact .load
  | store => exact .store
  | loadElement => exact .loadElement
  | storeElement => exact .storeElement
  | invoke hr ho hl hc =>
    simp only [judgement, invocation, π.method_instanceTrail _ _ _ _ ho hl]
    exact .invoke hr ho hl hc
  | receiver hr ho hl hc hd ht =>
    simp only [judgement, slot, π.method_instanceTrail _ _ _ _ ho hl]
    exact .receiver hr ho hl hc hd ht

theorem linked {i : Invocation} (h : Linked p i J) : Linked p (π.invocation i) (π.judgement J) := by
  cases h with
  | reachable => exact .reachable
  | argument hs hd ha => exact .argument hs hd ha
  | result hs hd hl hv => exact .result hs hd hl hv

/-- What the finer rules derive, the coarser rules derive of the projected contexts. -/
theorem derivable (h : Derivable p σ J) : Derivable p σ' (π.judgement J) := by
  induction h with
  | main hm =>
    rw [judgement, π.method_nil]
    exact .main hm
  | immediate _ hs hJ ih => exact .immediate ih hs (π.immediate hJ)
  | perObject _ hs _ hJ ihm ihb => exact .perObject ihm hs ihb (π.perObject hJ)
  | linked _ hJ ih => exact .linked ih (π.linked hJ)
  | carried _ _ ihf iha => exact .carried ihf iha

def refl (p : Program) (σ : Sensitivity) : Projection p σ σ :=
  ⟨id, id, rfl, fun _ _ => rfl, fun _ _ _ _ _ _ => rfl, fun _ => rfl⟩

def trans {σ'' : Sensitivity} (ρ : Projection p σ' σ'') : Projection p σ σ'' where
  method := ρ.method ∘ π.method
  heap := ρ.heap ∘ π.heap
  method_nil := (congrArg ρ.method π.method_nil).trans ρ.method_nil
  method_staticTrail t s :=
    (congrArg ρ.method (π.method_staticTrail t s)).trans (ρ.method_staticTrail _ s)
  method_instanceTrail t s l o ho hl :=
    (congrArg ρ.method (π.method_instanceTrail t s l o ho hl)).trans
      (ρ.method_instanceTrail _ s ⟨π.heap l.trail, l.site⟩ o ho hl)
  heap_heapTrail t := (congrArg ρ.heap (π.heap_heapTrail t)).trans (ρ.heap_heapTrail _)

end Projection

/-- One sensitivity tells more contexts apart than another: it keeps one element more, or objects
where the other keeps their classes, or the other keeps nothing. -/
inductive Sensitivity.Finer : Sensitivity → Sensitivity → Prop
  | insensitive (σ : Sensitivity) : Finer σ .insensitive
  | callSite (k : Nat) : Finer (.callSite (k + 1)) (.callSite k)
  | object (k : Nat) : Finer (.object (k + 1)) (.object k)
  | type (k : Nat) : Finer (.type (k + 1)) (.type k)
  | objectType (k : Nat) : Finer (.object k) (.type k)

/-- The order that finer sensitivities are in. -/
def Sensitivity.Refines : Sensitivity → Sensitivity → Prop := Relation.ReflTransGen Finer

/-- The mark of an object becomes that of the class that declares the allocating method. -/
def ownerMark (p : Program) : Mark → Mark
  | .object s =>
    match p.stmt s >>= fun x => p.method x.method with
    | .ok d => .type d.owner
    | .error _ => .object s
  | x => x

theorem ownerMark_object {p : Program} (hl : p.Layout) {o : Obj} (h : p.Allocates o) :
    ownerMark p (.object o.site) = .type o.owner := by
  obtain ⟨d, lhs, hd, howner, hb, -⟩ := h
  obtain ⟨x, hx, hm⟩ := hl.stmt_of_mem_body hd hb
  simp [ownerMark, hx, hm, hd, howner]

/-- A finer sensitivity has a projection: the oldest elements are dropped. -/
theorem Sensitivity.Finer.exists_projection {p : Program} (hl : p.Layout) {σ σ' : Sensitivity}
    (h : σ.Finer σ') : Nonempty (Projection p σ σ') := by
  cases h with
  | insensitive => exact ⟨⟨fun _ => [], fun _ => [], rfl, fun _ _ => rfl, fun _ _ _ _ _ _ => rfl,
      fun _ => rfl⟩⟩
  | callSite k =>
    have hcall : ∀ (t : Trail) (s : StmtId), takeLast k (takeLast (k + 1) (t ++ [.callSite s])) =
        takeLast k (takeLast k t ++ [.callSite s]) := fun t s => by
      rw [takeLast_takeLast (Nat.le_succ k), takeLast_concat (Nat.le_succ k)]
    exact ⟨{
      method := takeLast k
      heap := takeLast (k - 1)
      method_nil := takeLast_nil k
      method_staticTrail := hcall
      method_instanceTrail := fun t s _ _ _ _ => hcall t s
      heap_heapTrail := fun t => by simp [heapTrail, takeLast_takeLast (Nat.sub_le k 1)] }⟩
  | object k | type k =>
    exact ⟨{
      method := takeLast k
      heap := takeLast (k - 1)
      method_nil := takeLast_nil k
      method_staticTrail := fun _ _ => rfl
      method_instanceTrail := fun _ _ l _ _ _ => by
        simp only [instanceTrail]
        rw [takeLast_takeLast (Nat.le_succ k), takeLast_concat (by omega)]
      heap_heapTrail := fun t => by simp [heapTrail, takeLast_takeLast (Nat.sub_le k 1)] }⟩
  | objectType k =>
    exact ⟨{
      method := fun t => t.map (ownerMark p)
      heap := fun t => t.map (ownerMark p)
      method_nil := rfl
      method_staticTrail := fun _ _ => rfl
      method_instanceTrail := fun _ _ l o ho hol => by
        simp only [instanceTrail, map_takeLast, List.map_append, List.map_singleton, ← hol,
          ownerMark_object hl ho]
      heap_heapTrail := fun t => map_takeLast _ _ _ }⟩

theorem Sensitivity.Refines.exists_projection {p : Program} (hl : p.Layout) {σ σ' : Sensitivity}
    (h : σ.Refines σ') : Nonempty (Projection p σ σ') := by
  induction h with
  | refl => exact ⟨.refl p σ⟩
  | tail _ hfiner ih =>
    obtain ⟨π⟩ := ih
    obtain ⟨ρ⟩ := hfiner.exists_projection hl
    exact ⟨π.trans ρ⟩

end ProgramFlow.PointsTo
