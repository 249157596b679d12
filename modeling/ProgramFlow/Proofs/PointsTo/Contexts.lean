import ProgramFlow.Proofs.PointsTo.Rules
import ProgramFlow.Proofs.Program.Variables
/-!
The contexts that a strategy selects. They are of bounded depth and of elements of one kind; a
variable of a receiver points to an object only in the context that is selected for this object.
-/
namespace ProgramFlow

namespace Program

variable {p : Program}

def IsReceiver (p : Program) (v : VarId) : Prop :=
  ∃ m d, p.method m = .ok d ∧ d.receiver = some v

/-- No statement assigns the variable of a receiver. -/
def FixedReceivers (p : Program) : Prop :=
  ∀ ⦃s i v⦄, p.instr s = .ok i → i.assigned? = some v → ¬ p.IsReceiver v

theorem fixedReceivers_iff : p.FixedReceivers ↔ ∀ x ∈ p.stmts.toList,
    ∀ v ∈ x.instr.assigned?, ∀ d ∈ p.methods.toList, d.receiver ≠ some v := by
  constructor
  · intro h x hx v hv d hd hr
    obtain ⟨i, hi⟩ := List.getElem?_of_mem hx
    obtain ⟨j, hj⟩ := List.getElem?_of_mem hd
    have hs : p.stmt ⟨i⟩ = .ok x := fetch_eq_ok_iff.2 (by simpa using hi)
    exact h (instr_eq_ok.2 ⟨x, hs, rfl⟩) hv
      ⟨⟨j⟩, d, fetch_eq_ok_iff.2 (by simpa using hj), hr⟩
  · rintro h s i v hi hv ⟨m, d, hd, hr⟩
    obtain ⟨x, hx, rfl⟩ := instr_eq_ok.1 hi
    have hx := Array.mem_toList_iff.2 (Array.mem_of_getElem? (fetch_eq_ok_iff.1 hx))
    have hd := Array.mem_toList_iff.2 (Array.mem_of_getElem? (fetch_eq_ok_iff.1 hd))
    exact h x hx v hv d hd hr

instance : Decidable p.FixedReceivers := decidable_of_iff _ fixedReceivers_iff.symm

theorem sample_fixedReceivers : sample.FixedReceivers := by decide

/-- A parameter is not the variable of any receiver. -/
theorem Built.not_isReceiver_of_mem_params (hb : p.Built) {m : MethodId} {d : MethodDecl}
    {v : VarId} (hd : p.method m = .ok d) (hv : v ∈ d.params) : ¬ p.IsReceiver v := by
  rintro ⟨m', d', hd', hr⟩
  obtain ⟨x, hx, rfl⟩ := hb.layout.params hd hv
  obtain ⟨x', hx', rfl⟩ := hb.layout.receiver hd' hr
  cases hx.symm.trans hx'
  cases hd.symm.trans hd'
  exact hb.receiver_notMem_params hd hr hv

end Program

namespace PointsTo

/-! ## Elements and depth -/

namespace Sensitivity

/-- The contexts of the strategy consist of such elements. -/
def Uses : Sensitivity → ContextElement → Prop
  | callSite _, .callSite _ | object _, .object _ | type _, .type _ => True
  | _, _ => False

/-- A context of the strategy with `d` elements at most. -/
structure Fits (σ : Sensitivity) (d : Nat) (x : Context) : Prop where
  depth : x.depth ≤ d
  uses : ∀ e ∈ x.elements, σ.Uses e

variable {σ : Sensitivity} {d : Nat} {x y : Context}

theorem fits_empty (σ : Sensitivity) (d : Nat) : σ.Fits d .empty :=
  ⟨Nat.zero_le d, by simp [Context.empty]⟩

theorem Fits.mono (h : σ.Fits d x) {d' : Nat} (hd : d ≤ d') : σ.Fits d' x :=
  ⟨h.depth.trans hd, h.uses⟩

theorem Fits.truncate (h : σ.Fits d x) (k : Nat) : σ.Fits k (x.truncate k) :=
  ⟨x.depth_truncate_le k, fun e he => h.uses e ((takeLast_suffix k x.elements).mem he)⟩

theorem Fits.append (h : σ.Fits d x) {e : ContextElement} (he : σ.Uses e) (k : Nat) :
    σ.Fits k (x.append e k) := by
  refine ⟨x.depth_append_le e k, fun e' he' => ?_⟩
  rcases List.mem_append.1 ((takeLast_suffix k _).mem he') with he' | he'
  · exact h.uses e' he'
  · exact List.mem_singleton.1 he' ▸ he

theorem Fits.staticContext (h : σ.Fits σ.depth x) (site : StmtId) :
    σ.Fits σ.depth (σ.staticContext x site) := by
  cases σ with
  | insensitive => exact fits_empty _ _
  | callSite k => exact h.append (e := .callSite site) trivial k
  | object k => exact h
  | type k => exact h

theorem Fits.instanceContext (h : σ.Fits σ.depth x) (hy : σ.Fits σ.depth y) (site : StmtId)
    (n : ObjId) (o : Obj) : σ.Fits σ.depth (σ.instanceContext x site y n o) := by
  cases σ with
  | insensitive => exact fits_empty _ _
  | callSite k => exact h.append (e := .callSite site) trivial k
  | object k => exact hy.append (e := .object n) trivial k
  | type k => exact hy.append (e := .type o.owner) trivial k

/-- The context of an object is one element shorter than that of the method which allocates it. -/
theorem Fits.heapContext (h : σ.Fits σ.depth x) : σ.Fits (σ.depth - 1) (σ.heapContext x) := by
  cases σ with
  | insensitive => exact fits_empty _ _
  | callSite k => exact h.truncate (k - 1)
  | object k => exact h.truncate (k - 1)
  | type k => exact h.truncate (k - 1)

end Sensitivity

/-! ## What contexts are selected for -/

/-- A method called at a site is in a context that ends with this site if the strategy follows call
sites, and the variable of a receiver in the context selected for the object that it points to. -/
def Judgement.Selected (p : Program) (σ : Sensitivity) : Judgement → Prop
  | .call i =>
    ∀ k, σ = .callSite k → i.calleeTrail = takeLast k (i.callerTrail ++ [.callSite i.site])
  | .pointsTo (.var t v) l => p.IsReceiver v → ∃ caller site o, p.Allocates o ∧ o.site = l.site ∧
    t = σ.instanceTrail caller site l o.owner
  | .flow _ (.var _ v) => ¬ p.IsReceiver v
  | _ => True

section

variable {p : Program} {σ : Sensitivity} {t : Trail} {m : MethodId} {s : StmtId} {i : Instr}
  {b : VarId} {l : Location} {J J' : Judgement}

section

variable (hr : p.FixedReceivers) (hi : p.Contains m s i)
include hr hi

theorem not_isReceiver_of_assigned {v : VarId} (hv : i.assigned? = some v) : ¬ p.IsReceiver v := by
  obtain ⟨d, -, -, hi⟩ := hi
  exact hr hi hv

theorem Immediate.selected (h : Immediate p σ t m s i J) : J.Selected p σ := by
  cases h with
  | new => exact fun hv => absurd hv (not_isReceiver_of_assigned hr hi rfl)
  | copy => exact not_isReceiver_of_assigned hr hi rfl
  | cast => exact not_isReceiver_of_assigned hr hi rfl
  | load => exact not_isReceiver_of_assigned hr hi rfl
  | store => trivial
  | invoke =>
    rintro k rfl
    rfl

theorem PerObject.selected (h : PerObject p σ t m s l b i J) : J.Selected p σ := by
  cases h with
  | load => exact not_isReceiver_of_assigned hr hi rfl
  | store => trivial
  | loadElement => exact not_isReceiver_of_assigned hr hi rfl
  | storeElement => trivial
  | invoke =>
    rintro k rfl
    rfl
  | receiver _ ho hl => exact fun _ => ⟨t, s, _, ho, hl, rfl⟩

end

section

variable (hb : p.Built) (hr : p.FixedReceivers)
include hb hr

theorem Linked.selected {c : Invocation} (h : Linked p c J) : J.Selected p σ := by
  cases h with
  | reachable => trivial
  | argument _ hd ha => exact hb.not_isReceiver_of_mem_params hd (List.of_mem_zip ha).2
  | result hs _ hlhs _ => exact hr hs hlhs

/-- Only a call that passes its receiver makes the variable of a receiver point to an object. -/
theorem saturated_selected : Saturated p σ (Judgement.Selected p σ) where
  main _ := trivial
  consequence _ h := by
    cases h with
    | immediate hi h => exact h.selected hr hi
    | perObject hi h => exact h.selected hr hi
    | linked h => exact h.selected hb hr
  carried {a b l} hf _ := by
    cases b with
    | var t v => exact fun hv => absurd hv hf
    | _ => trivial

end

end

end PointsTo

end ProgramFlow
