import ProgramFlow.Collection.Coded
/-!
Contexts of a points-to analysis: strings of call sites, objects or classes, the latest last. Only
a bounded number of the latest elements is kept.
-/
namespace ProgramFlow.PointsTo

inductive ContextElement
  | callSite (site : StmtId)
  | object (obj : ObjId)
  | type (cls : ClassId)
  deriving DecidableEq, Repr

def ContextElement.text : ContextElement → String
  | callSite s => s.text
  | object o => o.text
  | type c => c.text

def ContextElement.code : ContextElement → Nat × Nat
  | callSite s => (0, s.index)
  | object o => (1, o.index)
  | type c => (2, c.index)

theorem ContextElement.code_injective {a b : ContextElement} (h : a.code = b.code) : a = b := by
  cases a <;> cases b <;> simp_all [code, Id.ext_iff]

structure Context where
  elements : List ContextElement
  deriving DecidableEq, Repr

/-- The last `k` items of a list. -/
def takeLast {α : Type} (k : Nat) (l : List α) : List α := l.drop (l.length - k)

theorem length_takeLast {α : Type} (k : Nat) (l : List α) :
    (takeLast k l).length = min k l.length := by
  simp only [takeLast, List.length_drop]
  omega

theorem takeLast_suffix {α : Type} (k : Nat) (l : List α) : takeLast k l <:+ l :=
  List.drop_suffix _ _

namespace Context

def empty : Context := ⟨[]⟩

instance : Inhabited Context := ⟨empty⟩

instance : Coded Context where
  code c := c.elements.flatMap fun e => [e.code.1, e.code.2]
  code_injective {a b} h := by
    obtain ⟨a⟩ := a
    obtain ⟨b⟩ := b
    congr 1
    induction a generalizing b with
    | nil => cases b <;> simp_all
    | cons x a ih =>
      cases b with
      | nil => simp at h
      | cons y b =>
        simp only [List.flatMap_cons, List.cons_append, List.nil_append, List.cons.injEq] at h
        obtain ⟨h₁, h₂, h⟩ := h
        rw [ContextElement.code_injective (Prod.ext h₁ h₂), ih b h]

def depth (c : Context) : Nat := c.elements.length

def isEmpty (c : Context) : Bool := c.elements.isEmpty

/-- The last `k` elements. -/
def truncate (c : Context) (k : Nat) : Context := ⟨takeLast k c.elements⟩

/-- Adds an element and keeps the last `k`. -/
def append (c : Context) (e : ContextElement) (k : Nat) : Context :=
  ⟨takeLast k (c.elements ++ [e])⟩

def text (c : Context) : String :=
  "[" ++ ", ".intercalate (c.elements.map ContextElement.text) ++ "]"

theorem depth_truncate_le (c : Context) (k : Nat) : (c.truncate k).depth ≤ k := by
  rw [depth, truncate, length_takeLast]
  omega

theorem depth_append_le (c : Context) (e : ContextElement) (k : Nat) :
    (c.append e k).depth ≤ k := by
  rw [depth, append, length_takeLast]
  omega

end Context

end ProgramFlow.PointsTo
