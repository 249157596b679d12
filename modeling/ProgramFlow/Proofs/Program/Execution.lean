import Mathlib.Logic.Function.Basic
import ProgramFlow.Graph.ControlFlow
import ProgramFlow.Proofs.Program.Dispatch
/-!
The runs of a program, as far as references go: numbers are not followed, so a branch may go either
way and an index may be any. A run that cannot go on has stopped.
-/
namespace ProgramFlow.Execution

/-- Objects are numbered in the order of their allocation. -/
abbrev Address := Nat

/-- A reference, or a value that is none: null or a number. -/
abbrev Content := Option Address

structure Object where
  site : StmtId
  ty : Ty
  deriving DecidableEq, Repr

/-- What can hold a value outside the methods. -/
inductive Place
  | staticField (f : FieldId)
  | instanceField (base : Address) (f : FieldId)
  | arrayElement (base : Address) (index : Nat)
  deriving DecidableEq, Repr

structure Store where
  objects : List Object
  memory : Place → Content

namespace Store

def empty : Store := ⟨[], fun _ => none⟩

/-- The new object has the next address. -/
def allocate (μ : Store) (o : Object) : Store := { μ with objects := μ.objects ++ [o] }

def write (μ : Store) (x : Place) (a : Content) : Store :=
  { μ with memory := Function.update μ.memory x a }

end Store

abbrev Locals := VarId → Content

namespace Locals

def empty : Locals := fun _ => none

/-- Assigns a variable, if there is one. -/
def assign (ρ : Locals) (lhs : Option VarId) (a : Content) : Locals :=
  match lhs with
  | some v => Function.update ρ v a
  | none => ρ

/-- The place that a field access means; there is none if the base is no reference. -/
def place? (ρ : Locals) : FieldAccess → Option Place
  | .static f => some (.staticField f)
  | .instance b f => (ρ b).map (.instanceField · f)

end Locals

/-- Assigns a value that is no reference, or nothing. -/
def isPrimitive : Instr → Bool
  | .entry | .nop | .literal .. | .binary .. | .neg .. | .arrayLength .. | .branch .. | .switch ..
  | .goto _ | .unknown .. => true
  | _ => false

/-- What the instruction of a statement does when control stays in the method. -/
inductive Effect (s : StmtId) (μ : Store) (ρ : Locals) : Instr → Store → Locals → Prop
  | new {lhs ty} : Effect s μ ρ (.new lhs ty) (μ.allocate ⟨s, ty⟩)
      (ρ.assign (some lhs) (some μ.objects.length))
  | copy {lhs rhs} : Effect s μ ρ (.copy lhs rhs) μ (ρ.assign (some lhs) (ρ rhs))
  | cast {lhs operand ty} : Effect s μ ρ (.cast lhs operand ty) μ (ρ.assign (some lhs) (ρ operand))
  | load {lhs access x} (hx : ρ.place? access = some x) :
    Effect s μ ρ (.loadField lhs access) μ (ρ.assign (some lhs) (μ.memory x))
  | store {access rhs x} (hx : ρ.place? access = some x) :
    Effect s μ ρ (.storeField access rhs) (μ.write x (ρ rhs)) ρ
  | loadElement {lhs access a} (index : Nat) (ha : ρ access.base = some a) :
    Effect s μ ρ (.loadArray lhs access) μ
      (ρ.assign (some lhs) (μ.memory (.arrayElement a index)))
  | storeElement {access rhs a} (index : Nat) (ha : ρ access.base = some a) :
    Effect s μ ρ (.storeArray access rhs) (μ.write (.arrayElement a index) (ρ rhs)) ρ
  | primitive {i} (hi : isPrimitive i = true) : Effect s μ ρ i μ (ρ.assign i.assigned? none)
  /-- An unknown statement may also leave its variable as it was. -/
  | idle {tag lhs reads} : Effect s μ ρ (.unknown tag lhs reads) μ ρ

/-- The variables through which the instruction reaches into an object. -/
def bases : Instr → List VarId
  | .loadField _ access | .storeField access _ => access.base?.toList
  | .loadArray _ access | .storeArray access _ => [access.base]
  | _ => []

/-- The method that a call enters and the receiver that it passes. -/
inductive Enters (p : Program) (μ : Store) (ρ : Locals) (call : Call) : MethodId → Content → Prop
  | static {callee} (hk : call.kind = .static) (hc : p.resolve none call = .ok (some callee)) :
    Enters p μ ρ call callee none
  | instance {b a o callee} (hk : call.kind ≠ .static) (hr : call.receiver = some b)
    (ha : ρ b = some a) (ho : μ.objects[a]? = some o)
    (hc : p.resolve o.ty.class? call = .ok (some callee)) : Enters p μ ρ call callee (some a)

/-- The variables of a method that is entered from a call with these arguments. Those that are
neither the receiver nor a parameter are null. -/
def arguments (d : MethodDecl) (this : Content) (ρ : Locals) (args : List VarId) :
    Locals := fun v =>
  if d.receiver = some v then this
  else ((args.zip d.params).find? (·.2 = v)).bind fun x => ρ x.1

/-- The value with which an instruction leaves its method. -/
def result? (ρ : Locals) : Instr → Option Content
  | .ret (some v) => some (ρ v)
  | .ret none | .exit => some none
  | _ => none

/-- An activation of a method. -/
structure Frame where
  method : MethodId
  /-- The next statement, or the call in progress. -/
  site : StmtId
  locals : Locals

/-- Control may pass from the statement of the frame to the other statement. -/
def Frame.Passes (p : Program) (f : Frame) (s : StmtId) : Prop :=
  ∃ g, p.controlFlow f.method = .ok g ∧ s ∈ g.succs f.site

structure Config where
  store : Store
  top : Frame
  /-- The activations that wait for a call, the latest first. -/
  callers : List Frame

namespace Config

def initial (main : MethodId) (d : MethodDecl) : Config := ⟨.empty, ⟨main, d.entry, .empty⟩, []⟩

def frames (c : Config) : List Frame := c.top :: c.callers

end Config

/-- A step, with the call that it executes: its site and the method that it enters. -/
inductive Step (p : Program) : Config → Option (StmtId × MethodId) → Config → Prop
  | advance {μ f k i s' μ' ρ'} (hi : p.instr f.site = .ok i)
    (he : Effect f.site μ f.locals i μ' ρ') (hs : f.Passes p s') :
    Step p ⟨μ, f, k⟩ none ⟨μ', ⟨f.method, s', ρ'⟩, k⟩
  | call {μ f k call callee this d} (hi : p.instr f.site = .ok (.invoke call))
    (he : Enters p μ f.locals call callee this) (hd : p.method callee = .ok d) :
    Step p ⟨μ, f, k⟩ (some (f.site, callee))
      ⟨μ, ⟨callee, d.entry, arguments d this f.locals call.args⟩, f :: k⟩
  | leave {μ f g k i a call s'} (hi : p.instr f.site = .ok i) (ha : result? f.locals i = some a)
    (hc : p.instr g.site = .ok (.invoke call)) (hs : g.Passes p s') :
    Step p ⟨μ, f, g :: k⟩ none ⟨μ, ⟨g.method, s', g.locals.assign call.lhs a⟩, k⟩

/-- The configurations of the runs from the main method, with the calls executed so far, the latest
first. -/
inductive Run (p : Program) : Config → List (StmtId × MethodId) → Prop
  | start {m d} (hm : p.main = some m) (hd : p.method m = .ok d) : Run p (.initial m d) []
  | step {c c' calls call} (h : Run p c calls) (hs : Step p c call c') :
    Run p c' (call.toList ++ calls)

/-- Main returns, an object is missing, or a call finds no method. -/
inductive Stopped (p : Program) : Config → Prop
  | returned {μ f i a} (hi : p.instr f.site = .ok i) (ha : result? f.locals i = some a) :
    Stopped p ⟨μ, f, []⟩
  | null {μ f k i b} (hi : p.instr f.site = .ok i) (hb : b ∈ bases i) (hn : f.locals b = none) :
    Stopped p ⟨μ, f, k⟩
  | lost {μ f k call} (hi : p.instr f.site = .ok (.invoke call))
    (h : ∀ callee this, ¬ Enters p μ f.locals call callee this) : Stopped p ⟨μ, f, k⟩

theorem Enters.method {p : Program} {μ : Store} {ρ : Locals} {call : Call} {callee : MethodId}
    {this : Content} (h : Enters p μ ρ call callee this) : ∃ d, p.method callee = .ok d := by
  cases h with
  | static _ hc => exact (p.method_of_resolve hc).imp fun _ => And.left
  | «instance» _ _ _ _ hc => exact (p.method_of_resolve hc).imp fun _ => And.left

theorem Locals.assign_eq_some {ρ : Locals} {lhs : Option VarId} {a : Content} {v : VarId}
    {n : Address} (h : ρ.assign lhs a v = some n) :
    lhs = some v ∧ a = some n ∨ ρ v = some n := by
  cases lhs with
  | none => exact .inr h
  | some w =>
    rw [assign, Function.update_apply] at h
    split at h
    · next hv => exact .inl ⟨congrArg some hv.symm, h⟩
    · exact .inr h

theorem Store.memory_write_eq_some {μ : Store} {x y : Place} {a : Content} {n : Address}
    (h : (μ.write x a).memory y = some n) : y = x ∧ a = some n ∨ μ.memory y = some n := by
  simp only [write, Function.update_apply] at h
  split at h
  · next hy => exact .inl ⟨hy, h⟩
  · exact .inr h

theorem arguments_eq_some {d : MethodDecl} {this : Content} {ρ : Locals} {args : List VarId}
    {v : VarId} {n : Address} (h : arguments d this ρ args v = some n) :
    d.receiver = some v ∧ this = some n ∨ ∃ w, (w, v) ∈ args.zip d.params ∧ ρ w = some n := by
  unfold arguments at h
  split at h
  · next hr => exact .inl ⟨hr, h⟩
  · obtain ⟨⟨w, x⟩, hx, hw⟩ := Option.bind_eq_some_iff.1 h
    obtain rfl : x = v := by simpa using List.find?_some hx
    exact .inr ⟨w, List.mem_of_find?_eq_some hx, hw⟩

theorem Locals.exists_place {ρ : Locals} {access : FieldAccess}
    (h : ∀ b ∈ access.base?.toList, ρ b ≠ none) : ∃ x, ρ.place? access = some x := by
  cases access with
  | static f => exact ⟨_, rfl⟩
  | «instance» b f =>
    obtain ⟨a, ha⟩ := Option.ne_none_iff_exists'.1 (h b (by simp [FieldAccess.base?]))
    exact ⟨_, Option.map_eq_some_iff.2 ⟨a, ha, rfl⟩⟩

theorem Locals.base_ne_none {ρ : Locals} {access : FieldAccess} {x : Place}
    (h : ρ.place? access = some x) : ∀ b ∈ access.base?.toList, ρ b ≠ none := by
  cases access with
  | static f => simp [FieldAccess.base?]
  | «instance» b f =>
    obtain ⟨a, ha, -⟩ := Option.map_eq_some_iff.1 h
    simp [FieldAccess.base?, ha]

theorem plain_of_isPrimitive {ρ : Locals} {i : Instr} (h : isPrimitive i = true) :
    i.isInvoke = false ∧ result? ρ i = none ∧ ∀ b ∈ bases i, ρ b ≠ none := by
  cases i <;> simp_all [isPrimitive, Instr.isInvoke, Instr.call?, result?, bases]

theorem bases_of_result?_eq_some {ρ : Locals} {i : Instr} {a : Content}
    (h : result? ρ i = some a) : bases i = [] := by
  cases i <;> simp_all [result?, bases]

/-- An instruction that neither calls nor returns has an effect unless an object is missing. -/
theorem exists_effect_iff {s : StmtId} {μ : Store} {ρ : Locals} {i : Instr} :
    (∃ μ' ρ', Effect s μ ρ i μ' ρ') ↔
      i.isInvoke = false ∧ result? ρ i = none ∧ ∀ b ∈ bases i, ρ b ≠ none := by
  constructor
  · intro h
    obtain ⟨μ', ρ', he⟩ := h
    cases he with
    | new => exact ⟨rfl, rfl, by simp [bases]⟩
    | copy => exact ⟨rfl, rfl, by simp [bases]⟩
    | cast => exact ⟨rfl, rfl, by simp [bases]⟩
    | load hx => exact ⟨rfl, rfl, Locals.base_ne_none hx⟩
    | store hx => exact ⟨rfl, rfl, Locals.base_ne_none hx⟩
    | loadElement _ ha => exact ⟨rfl, rfl, by simp [bases, ha]⟩
    | storeElement _ ha => exact ⟨rfl, rfl, by simp [bases, ha]⟩
    | primitive hi => exact plain_of_isPrimitive hi
    | idle => exact ⟨rfl, rfl, by simp [bases]⟩
  · intro h
    obtain ⟨hcall, hresult, hbases⟩ := h
    cases i with
    | new => exact ⟨_, _, .new⟩
    | copy => exact ⟨_, _, .copy⟩
    | cast => exact ⟨_, _, .cast⟩
    | loadField lhs access =>
      obtain ⟨x, hx⟩ := Locals.exists_place hbases
      exact ⟨_, _, .load hx⟩
    | storeField access rhs =>
      obtain ⟨x, hx⟩ := Locals.exists_place hbases
      exact ⟨_, _, .store hx⟩
    | loadArray lhs access =>
      obtain ⟨a, ha⟩ := Option.ne_none_iff_exists'.1 (hbases access.base (by simp [bases]))
      exact ⟨_, _, .loadElement 0 ha⟩
    | storeArray access rhs =>
      obtain ⟨a, ha⟩ := Option.ne_none_iff_exists'.1 (hbases access.base (by simp [bases]))
      exact ⟨_, _, .storeElement 0 ha⟩
    | invoke => cases hcall
    | exit => cases hresult
    | ret value => cases value <;> cases hresult
    | _ => exact ⟨_, _, .primitive rfl⟩

theorem Stopped.not_step {p : Program} {c c' : Config} {call : Option (StmtId × MethodId)}
    (h : Stopped p c) : ¬ Step p c call c' := by
  intro hs
  cases h with
  | returned hi ha =>
    cases hs with
    | advance hi' he =>
      cases hi.symm.trans hi'
      obtain ⟨-, hnone, -⟩ := exists_effect_iff.1 ⟨_, _, he⟩
      cases ha.symm.trans hnone
    | call hi' =>
      cases hi.symm.trans hi'
      cases ha
  | null hi hb hn =>
    cases hs with
    | advance hi' he =>
      cases hi.symm.trans hi'
      obtain ⟨-, -, hbases⟩ := exists_effect_iff.1 ⟨_, _, he⟩
      exact hbases _ hb hn
    | call hi' =>
      cases hi.symm.trans hi'
      cases hb
    | leave hi' ha =>
      cases hi.symm.trans hi'
      rw [bases_of_result?_eq_some ha] at hb
      cases hb
  | lost hi h =>
    cases hs with
    | advance hi' he =>
      cases hi.symm.trans hi'
      obtain ⟨hcall, -⟩ := exists_effect_iff.1 ⟨_, _, he⟩
      cases hcall
    | call hi' he =>
      cases hi.symm.trans hi'
      exact h _ _ he
    | leave hi' ha =>
      cases hi.symm.trans hi'
      cases ha

end ProgramFlow.Execution
