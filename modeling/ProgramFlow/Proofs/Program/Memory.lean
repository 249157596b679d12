import ProgramFlow.Interprocedural.Constants
import ProgramFlow.Proofs.Program.Activations
/-!
Runs with a memory. Objects come from allocations only, a place outside the methods remembers the
statement that has written it, and a call enters the method that its receiver selects.
-/
namespace ProgramFlow.Machine

open Execution (Content Locals Object Place)
open Interprocedural (loadedVar? storedVar?)

/-- What has been written, and the statement that wrote it last. -/
structure Cell where
  value : Option Datum
  writer : StmtId

structure Memory where
  objects : List Object
  cells : Place → Option Cell

namespace Memory

def empty : Memory := ⟨[], fun _ => none⟩

/-- The new object has the next address. -/
def allocate (μ : Memory) (o : Object) : Memory := { μ with objects := μ.objects ++ [o] }

def write (μ : Memory) (x : Place) (c : Cell) : Memory :=
  { μ with cells := Function.update μ.cells x (some c) }

/-- What is read from a place: what was written there, or anything that is no object. -/
def Reads (μ : Memory) (x : Place) (y : Option Datum) : Prop :=
  match μ.cells x with
  | some c => y = c.value
  | none => y.bind Datum.address? = none

/-- The references in the memory. -/
def store (μ : Memory) : Execution.Store :=
  ⟨μ.objects, fun x => (μ.cells x).bind fun c => c.value.bind Datum.address?⟩

theorem Reads.address {μ : Memory} {x : Place} {y : Option Datum} (h : μ.Reads x y) :
    y.bind Datum.address? = μ.store.memory x := by
  unfold Reads at h
  simp only [store]
  split at h
  · next c hc => rw [hc, h]; rfl
  · next hc => rw [hc, h]; rfl

theorem Reads.eq_value {μ : Memory} {x : Place} {y : Option Datum} (h : μ.Reads x y) {c : Cell}
    (hc : μ.cells x = some c) : y = c.value := by
  unfold Reads at h
  rwa [hc] at h

theorem cells_write_eq_some {μ : Memory} {x y : Place} {c c' : Cell}
    (h : (μ.write x c).cells y = some c') : y = x ∧ c' = c ∨ μ.cells y = some c' := by
  simp only [write, Function.update_apply] at h
  split at h
  · next hy => exact .inl ⟨hy, (Option.some.inj h).symm⟩
  · exact .inr h

theorem store_write (μ : Memory) (x : Place) (c : Cell) :
    (μ.write x c).store = μ.store.write x (c.value.bind Datum.address?) := by
  simp only [store, write, Execution.Store.write, Execution.Store.mk.injEq, true_and]
  funext y
  simp only [Function.update_apply]
  split <;> rfl

end Memory

namespace Env

/-- The objects that the variables refer to. -/
def addresses (ρ : Env) : Locals := fun v => (ρ v).bind Datum.address?

/-- The element that an array access means. There is none if the base is no reference or the index
is negative. -/
def element? (ρ : Env) (access : ArrayAccess) : Option Place :=
  match ρ.addresses access.base, ρ access.index with
  | some a, some (.int k) => if 0 ≤ k.toInt then some (.arrayElement a k.toInt.toNat) else none
  | _, _ => none

/-- The place that a load or a store touches. -/
def place? (ρ : Env) : Instr → Option Place
  | .loadField _ access | .storeField access _ => ρ.addresses.place? access
  | .loadArray _ access | .storeArray access _ => ρ.element? access
  | _ => none

theorem addresses_assign (ρ : Env) (lhs : Option VarId) (x : Option Datum) :
    (ρ.assign lhs x).addresses = ρ.addresses.assign lhs (x.bind Datum.address?) := by
  cases lhs with
  | none => rfl
  | some v =>
    funext w
    simp only [addresses, assign, Locals.assign, Function.update_apply]
    split <;> rfl

theorem element?_eq_some {ρ : Env} {access : ArrayAccess} {x : Place}
    (h : ρ.element? access = some x) : ∃ (a : Nat) (k : Int32) (n : Nat),
      ρ.addresses access.base = some a ∧ ρ access.index = some (.int k) ∧ k.toInt = n ∧
        x = .arrayElement a n := by
  unfold element? at h
  split at h
  · next a k ha hk =>
    split at h
    · next hle => exact ⟨a, k, k.toInt.toNat, ha, hk, (Int.toNat_of_nonneg hle).symm,
        (Option.some.inj h).symm⟩
    · cases h
  · cases h

end Env

theorem addresses_arguments (d : MethodDecl) (this : Option Datum) (ρ : Env)
    (args : List VarId) : (arguments d this ρ args).addresses =
      Execution.arguments d (this.bind Datum.address?) ρ.addresses args := by
  funext v
  simp only [Env.addresses, arguments, Execution.arguments]
  split
  · rfl
  · rw [Option.bind_assoc]

/-- What the memory answers to a statement and what it is afterwards. -/
inductive Answers (s : StmtId) (μ : Memory) (ρ : Env) : Instr → Answer → Memory → Prop
  | own {i answer} (hi : asks i = false) : Answers s μ ρ i answer μ
  | new {lhs ty} : Answers s μ ρ (.new lhs ty)
      (.done (some (.reference (some μ.objects.length)))) (μ.allocate ⟨s, ty⟩)
  | arrayLength {lhs array y} (hy : y.bind Datum.address? = none) :
    Answers s μ ρ (.arrayLength lhs array) (.done y) μ
  | unknown {tag lhs reads y} (hy : y.bind Datum.address? = none) :
    Answers s μ ρ (.unknown tag lhs reads) (.done y) μ
  /-- A cast keeps a reference, and it makes none. -/
  | cast {lhs operand ty y} (hy : y.bind Datum.address? = ρ.addresses operand) :
    Answers s μ ρ (.cast lhs operand ty) (.done y) μ
  | load {i lhs x y} (hl : loadedVar? i = some lhs) (hx : ρ.place? i = some x)
    (hy : μ.Reads x y) : Answers s μ ρ i (.done y) μ
  | store {i rhs x} (hr : storedVar? i = some rhs) (hx : ρ.place? i = some x) :
    Answers s μ ρ i (.done none) (μ.write x ⟨ρ rhs, s⟩)

theorem Answers.reads {A : Arithmetic} {s : StmtId} {μ μ' : Memory} {ρ : Env} {i : Instr}
    {answer : Answer} (h : Answers s μ ρ i answer μ') {lhs : VarId} (hl : loadedVar? i = some lhs)
    {z : Option Datum} (hz : A.result ρ answer i = .done z) :
    ∃ x, ρ.place? i = some x ∧ μ.Reads x z := by
  cases h with
  | load hl' hx hy =>
    refine ⟨_, hx, ?_⟩
    cases i with
    | loadField | loadArray =>
      cases hz
      exact hy
    | _ => cases hl
  | own hi =>
    cases i with
    | loadField | loadArray => cases hi
    | _ => cases hl
  | store hr =>
    cases i with
    | storeField | storeArray => cases hl
    | _ => cases hr
  | _ => cases hl

/-- What the memory decides: the answer to the latest activation, and the method that it calls. -/
inductive Responds (p : Program) (μ : Memory) : List Frame → Action → Memory → Prop
  | go {m d k ρ fs i answer μ'} (hd : p.method m = .ok d) (hi : p.instr (d.stmtAt k) = .ok i)
    (ha : Answers (d.stmtAt k) μ ρ i answer μ') :
    Responds p μ (⟨m, k, ρ⟩ :: fs) (.go answer) μ'
  | call {f fs call site callee this} (hi : p.instr site = .ok (.invoke call))
    (he : Execution.Enters p μ.store f.locals.addresses call callee
      (this.bind Datum.address?)) :
    Responds p μ (f :: fs) (.call site callee this) μ
  | leave {fs} : Responds p μ fs .leave μ

/-- If the activation is about to load an integer, then a store has written the place that it reads,
and from an integer. -/
def Frame.Fed (p : Program) (μ : Memory) (f : Frame) : Prop :=
  ∀ d i lhs x, p.method f.method = .ok d → p.instr (d.point f.position) = .ok i →
    loadedVar? i = some lhs → p.isIntVar lhs = .ok true → f.locals.place? i = some x →
      ∃ c store rhs, μ.cells x = some c ∧ p.instr c.writer = .ok store ∧
        storedVar? store = some rhs ∧ p.isIntVar rhs = .ok true

theorem Frame.Fed.of_not_load {p : Program} {μ : Memory} {f : Frame} {d : MethodDecl} {i : Instr}
    (hd : p.method f.method = .ok d) (hi : p.instr (d.point f.position) = .ok i)
    (h : loadedVar? i = none) : f.Fed p μ := by
  intro d' i' lhs x hd' hi' hl
  cases hd.symm.trans hd'
  cases hi.symm.trans hi'
  cases h.symm.trans hl

theorem Frame.Fed.of_load {p : Program} {μ : Memory} {f : Frame} {d : MethodDecl} {i j : Instr}
    {x : Place} {c : Cell} {rhs : VarId} (hd : p.method f.method = .ok d)
    (hi : p.instr (d.point f.position) = .ok i) (hx : f.locals.place? i = some x)
    (hc : μ.cells x = some c) (hj : p.instr c.writer = .ok j) (hrhs : storedVar? j = some rhs)
    (hint : p.isIntVar rhs = .ok true) : f.Fed p μ := by
  intro d' i' _ x' hd' hi' _ _ hx'
  cases hd.symm.trans hd'
  cases hi.symm.trans hi'
  cases hx.symm.trans hx'
  exact ⟨c, j, rhs, hc, hj, hrhs, hint⟩

/-- The memories and stacks of the runs from the main method in which what is loaded as an integer
has been written as one. The parameters of main may be any integers, but refer to no objects. -/
inductive Executes (A : Arithmetic) (p : Program) : Memory → List Frame → Prop
  | start {m d ρ} (hm : p.main = some m) (hd : p.method m = .ok d) (hρ : Starts p d ρ)
    (hnull : ∀ v, ρ.addresses v = none) : Executes A p .empty [⟨m, 0, ρ⟩]
  | step {μ μ' f fs fs' a} (h : Executes A p μ (f :: fs)) (hf : f.Fed p μ)
    (hs : Moves A p (f :: fs) a fs') (hr : Responds p μ (f :: fs) a μ') : Executes A p μ' fs'

theorem address_of_combine {A : Arithmetic} {op : Operator} {a b x : Option Datum}
    (h : A.combine op a b = .done x) : x.bind Datum.address? = none := by
  unfold Arithmetic.combine at h
  split at h
  · split at h
    · cases h
      rfl
    · cases h
  · cases h
    rfl

theorem address_datum (A : Arithmetic) (l : Literal) : (A.datum l).address? = none := by
  cases l <;> rfl

/-- An instruction that asks for nothing and stays in its method copies or computes. -/
theorem effect_of_own {A : Arithmetic} {s : StmtId} {μ : Execution.Store} {ρ : Env} {i : Instr}
    {answer : Answer} {x : Option Datum} (hi : asks i = false) (hs : stays i = true)
    (hexit : i ≠ .exit) (hx : A.result ρ answer i = .done x) :
    Execution.Effect s μ ρ.addresses i μ
      (ρ.addresses.assign i.assigned? (x.bind Datum.address?)) := by
  by_cases hcopy : ∃ lhs rhs, i = .copy lhs rhs
  · obtain ⟨lhs, rhs, rfl⟩ := hcopy
    cases hx
    exact .copy
  · have hnone : x.bind Datum.address? = none := by
      cases i with
      | literal lhs l =>
        cases hx
        exact address_datum A l
      | binary lhs exp => exact address_of_combine hx
      | neg lhs operand =>
        cases hx
        cases ρ operand <;> rfl
      | copy lhs rhs => exact absurd ⟨lhs, rhs, rfl⟩ hcopy
      | entry | nop | branch | switch | goto =>
        cases hx
        rfl
      | exit => exact absurd rfl hexit
      | _ => simp_all [asks, stays]
    rw [hnone]
    apply Execution.Effect.primitive
    cases i <;> simp_all [asks, stays, Execution.isPrimitive]

/-- What a statement does to the references is one of its effects. -/
theorem Answers.effect {A : Arithmetic} {s : StmtId} {μ μ' : Memory} {ρ : Env} {i : Instr}
    {answer : Answer} {x : Option Datum} (ha : Answers s μ ρ i answer μ') (hs : stays i = true)
    (hexit : i ≠ .exit) (hx : A.result ρ answer i = .done x) :
    Execution.Effect s μ.store ρ.addresses i μ'.store (ρ.assign i.assigned? x).addresses := by
  rw [Env.addresses_assign]
  cases ha with
  | own hi => exact effect_of_own hi hs hexit hx
  | new =>
    cases hx
    exact .new
  | arrayLength hy =>
    cases hx
    rw [hy]
    exact .primitive rfl
  | unknown hy =>
    cases hx
    rw [hy]
    exact .primitive rfl
  | cast hy =>
    cases hx
    rw [hy]
    exact .cast
  | load hl hplace hy =>
    cases i with
    | loadField lhs access =>
      cases hx
      rw [hy.address]
      exact .load hplace
    | loadArray lhs access =>
      cases hx
      obtain ⟨a, -, n, ha, -, -, rfl⟩ := Env.element?_eq_some hplace
      rw [hy.address]
      exact .loadElement n ha
    | _ => cases hl
  | store hr hplace =>
    rw [Memory.store_write]
    cases i with
    | storeField access rhs =>
      cases hr
      exact .store hplace
    | storeArray access rhs =>
      cases hr
      obtain ⟨a, -, n, ha, -, -, rfl⟩ := Env.element?_eq_some hplace
      exact .storeElement n ha
    | _ => cases hr

end ProgramFlow.Machine
