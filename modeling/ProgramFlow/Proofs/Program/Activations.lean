import ProgramFlow.Graph.Supergraph
import ProgramFlow.Proofs.Program.Evaluation
/-!
Runs through the methods of a program. A run is at a stack of activations, the latest first, each
with variables of its own; only the latest goes on, and the others wait for their calls.
-/
namespace ProgramFlow

namespace Machine

/-- The variables of a method that is entered from a call with these arguments. Those that are
neither the receiver nor a parameter are unassigned. -/
def arguments (d : MethodDecl) (this : Option Datum) (ρ : Env) (args : List VarId) : Env := fun v =>
  if d.receiver = some v then this
  else ((args.zip d.params).find? (·.2 = v)).bind fun x => ρ x.1

theorem arguments_eq_some {d : MethodDecl} {this : Option Datum} {ρ : Env} {args : List VarId}
    {v : VarId} {x : Datum} (h : arguments d this ρ args v = some x) :
    d.receiver = some v ∧ this = some x ∨ ∃ w, (w, v) ∈ args.zip d.params ∧ ρ w = some x := by
  unfold arguments at h
  split at h
  · next hr => exact .inl ⟨hr, h⟩
  · obtain ⟨⟨w, u⟩, hu, hw⟩ := Option.bind_eq_some_iff.1 h
    obtain rfl : u = v := by simpa using List.find?_some hu
    exact .inr ⟨w, List.mem_of_find?_eq_some hu, hw⟩

/-- Control stays in the method: the instruction neither calls nor returns. -/
def stays : Instr → Bool
  | .invoke _ | .ret _ => false
  | _ => true

theorem not_isInvoke_of_stays {i : Instr} (h : stays i = true) : i.isInvoke = false := by
  cases i <;> simp_all [stays, Instr.isInvoke, Instr.call?]

/-- The activation is about to leave its method, with a datum if it returns one. -/
inductive Leaves (p : Program) : Frame → Option Datum → Prop
  | ret {m d k ρ v} (hd : p.method m = .ok d) (hk : k < d.length)
    (hi : p.instr (d.stmtAt k) = .ok (.ret v)) : Leaves p ⟨m, k, ρ⟩ (v.bind ρ)
  | exit {m d k ρ} (hd : p.method m = .ok d) (hk : d.length ≤ k) : Leaves p ⟨m, k, ρ⟩ none

/-- What is returned is held by a returned variable. -/
theorem Leaves.exists_mem_returns {p : Program} (hl : p.Layout) {f : Frame} {x : Datum}
    (h : Leaves p f (some x)) {d : MethodDecl} (hd : p.method f.method = .ok d) :
    ∃ v ∈ d.returns, f.locals v = some x := by
  generalize hy : some x = y at h
  cases h with
  | exit => cases hy
  | @ret m d' k ρ v hd' hk hi =>
    cases hd.symm.trans hd'
    obtain ⟨w, rfl, -⟩ := Option.bind_eq_some_iff.1 hy.symm
    exact ⟨w, (hl.returns hd).2 ⟨_, MethodDecl.mem_body.2 ⟨k, hk, rfl⟩, hi⟩, rfl⟩

/-- What the latest activation does: a statement of its own with the answer from outside, a call
with the receiver that it passes, or the return to its caller. -/
inductive Action
  | go (answer : Answer)
  | call (site : StmtId) (callee : MethodId) (this : Option Datum)
  | leave
  deriving DecidableEq, Repr

/-- A step of a stack of activations. A call whose method returns nothing leaves its result
unassigned, and there is no step from a trap. -/
inductive Moves (A : Arithmetic) (p : Program) : List Frame → Action → List Frame → Prop
  | go {m d k ρ i answer x fs} (hd : p.method m = .ok d) (hk : k < d.length)
    (hi : p.instr (d.stmtAt k) = .ok i) (hs : stays i = true)
    (hx : A.result ρ answer i = .done x) :
    Moves A p (⟨m, k, ρ⟩ :: fs) (.go answer)
      (⟨m, A.next d ρ k i, ρ.assign i.assigned? x⟩ :: fs)
  | call {m d k ρ call callee d' this fs} (hd : p.method m = .ok d) (hk : k < d.length)
    (hi : p.instr (d.stmtAt k) = .ok (.invoke call)) (hd' : p.method callee = .ok d') :
    Moves A p (⟨m, k, ρ⟩ :: fs) (.call (d.stmtAt k) callee this)
      (⟨callee, 0, arguments d' this ρ call.args⟩ :: ⟨m, k, ρ⟩ :: fs)
  | leave {f m d k ρ call x fs} (hf : Leaves p f x) (hd : p.method m = .ok d)
    (hk : k < d.length) (hi : p.instr (d.stmtAt k) = .ok (.invoke call)) :
    Moves A p (f :: ⟨m, k, ρ⟩ :: fs) .leave (⟨m, k + 1, ρ.assign call.lhs x⟩ :: fs)

/-- The graph lists the method that the action enters. -/
def Action.Listed (g : Supergraph) : Action → Prop
  | .call site callee _ => callee ∈ g.calleesOf site
  | _ => True

/-- The stacks of the runs that start in an entry method of the graph, with any values of its
parameters, and that enter listed methods only. -/
inductive Reaches (A : Arithmetic) (p : Program) (g : Supergraph) : List Frame → Prop
  | start {m d ρ} (hm : m ∈ g.entryMethods) (hd : p.method m = .ok d) (hρ : Starts p d ρ) :
    Reaches A p g [⟨m, 0, ρ⟩]
  | step {fs fs' a} (h : Reaches A p g fs) (hs : Moves A p fs a fs') (ha : a.Listed g) :
    Reaches A p g fs'

end Machine

namespace Program

variable (p : Program)

/-- Integer parameters get integers, and an integer result comes from integers. -/
structure IntCall (call : Call) (d : MethodDecl) : Prop where
  arguments : ∀ e ∈ call.args.zip d.params, p.isIntVar e.2 = .ok true → p.isIntVar e.1 = .ok true
  result : ∀ v ∈ call.lhs, p.isIntVar v = .ok true → ∀ w ∈ d.returns, p.isIntVar w = .ok true

theorem intCall_iff {call : Call} {d : MethodDecl} : p.IntCall call d ↔
    (∀ e ∈ call.args.zip d.params, p.isIntVar e.2 = .ok true → p.isIntVar e.1 = .ok true) ∧
      ∀ v ∈ call.lhs, p.isIntVar v = .ok true → ∀ w ∈ d.returns, p.isIntVar w = .ok true :=
  ⟨fun h => ⟨h.arguments, h.result⟩, fun h => ⟨h.1, h.2⟩⟩

instance (call : Call) (d : MethodDecl) : Decidable (p.IntCall call d) :=
  decidable_of_iff _ p.intCall_iff.symm

/-- The calls of methods that the graph lists for them pass integers for integers. -/
def IntCalls (g : Supergraph) : Prop :=
  ∀ s i, p.instr s = .ok i → ∀ call ∈ i.call?, ∀ callee ∈ g.calleesOf s,
    ∀ d ∈ (p.method callee).toOption, p.IntCall call d

instance (g : Supergraph) : Decidable (p.IntCalls g) :=
  decidable_of_iff _ forall_instr.symm

theorem IntCalls.intCall {p : Program} {g : Supergraph} (h : p.IntCalls g) {s : StmtId}
    {call : Call} (hi : p.instr s = .ok (.invoke call)) {callee : MethodId}
    (hcallee : callee ∈ g.calleesOf s) {d : MethodDecl} (hd : p.method callee = .ok d) :
    p.IntCall call d :=
  h s _ hi call rfl callee hcallee d (by rw [hd]; rfl)

end Program

end ProgramFlow
