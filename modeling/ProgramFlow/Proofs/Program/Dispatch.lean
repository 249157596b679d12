import Mathlib.Data.Fintype.Card
import ProgramFlow.Program.Dispatch
import ProgramFlow.Proofs.Outcome
/-!
A call enters the nearest method with a body up the chain of superclasses.
-/
namespace ProgramFlow.Program

variable {p : Program} {name : String} {c : ClassId} {m : MethodId}

/-- The nearest method of that name with a body is declared `n` classes up. -/
inductive Nearest (p : Program) (name : String) : Nat → ClassId → MethodId → Prop
  | here {c d m} (hc : p.cls c = .ok d) (hm : p.concrete? d name = .ok (some m)) :
    Nearest p name 0 c m
  | above {n c d parent m} (hc : p.cls c = .ok d) (hm : p.concrete? d name = .ok none)
    (hp : d.superclass = some parent) (h : Nearest p name n parent m) : Nearest p name (n + 1) c m

theorem concrete?_eq_some_iff {d : ClassDecl} : p.concrete? d name = .ok (some m) ↔
    d.method? name = some m ∧ ∃ x, p.method m = .ok x ∧ x.isAbstract = false := by
  unfold concrete?
  cases d.method? name with
  | none => simp
  | some m' =>
    rw [Outcome.bind_eq_ok, Option.some.injEq]
    constructor
    · rintro ⟨x, hx, h⟩
      cases ha : x.isAbstract with
      | true => simp [ha] at h
      | false =>
        obtain rfl : m' = m := by simpa [ha] using h
        exact ⟨rfl, x, hx, ha⟩
    · rintro ⟨rfl, x, hx, ha⟩
      exact ⟨x, hx, by simp [ha]⟩

theorem dispatchWithin_eq_some_iff {n : Nat} :
    p.dispatchWithin name n c = .ok (some m) ↔ ∃ k < n, p.Nearest name k c m := by
  induction n generalizing c with
  | zero => simp [dispatchWithin]
  | succ n ih =>
    rw [dispatchWithin, Outcome.bind_eq_ok]
    constructor
    · intro h
      obtain ⟨d, hd, h⟩ := h
      obtain ⟨o, ho, h⟩ := Outcome.bind_eq_ok.1 h
      cases o with
      | some m' =>
        obtain rfl : m' = m := by simpa using h
        exact ⟨0, Nat.succ_pos n, .here hd ho⟩
      | none =>
        cases hp : d.superclass with
        | none => simp [hp] at h
        | some parent =>
          simp only [hp] at h
          obtain ⟨k, hk, hn⟩ := ih.1 h
          exact ⟨k + 1, Nat.succ_lt_succ hk, .above hd ho hp hn⟩
    · intro h
      obtain ⟨k, hk, h⟩ := h
      cases h with
      | here hd hm => exact ⟨_, hd, by simp [hm]⟩
      | above hd hm hp h =>
        have hn := ih.2 ⟨_, Nat.lt_of_succ_lt_succ hk, h⟩
        exact ⟨_, hd, by simp [hm, hp, hn]⟩

namespace Nearest

variable {k : Nat}

theorem unique (h : p.Nearest name k c m) {k' : Nat} {m' : MethodId}
    (h' : p.Nearest name k' c m') : k = k' ∧ m = m' := by
  induction h generalizing k' with
  | here hc hm =>
    cases h' with
    | here hc' hm' =>
      cases hc.symm.trans hc'
      cases hm.symm.trans hm'
      exact ⟨rfl, rfl⟩
    | above hc' hm' =>
      cases hc.symm.trans hc'
      cases hm.symm.trans hm'
  | above hc hm hp _ ih =>
    cases h' with
    | here hc' hm' =>
      cases hc.symm.trans hc'
      cases hm.symm.trans hm'
    | above hc' hm' hp' h' =>
      cases hc.symm.trans hc'
      cases hp.symm.trans hp'
      obtain ⟨rfl, rfl⟩ := ih h'
      exact ⟨rfl, rfl⟩

/-- The classes on the way, one at each distance. -/
theorem exists_at (h : p.Nearest name k c m) : ∀ i ≤ k, ∃ c', p.Nearest name i c' m := by
  induction h with
  | here hc hm =>
    intro i hi
    cases Nat.le_zero.1 hi
    exact ⟨_, .here hc hm⟩
  | above hc hm hp h ih =>
    intro i hi
    rcases Nat.le_or_eq_of_le_succ hi with hi | rfl
    · exact ih i hi
    · exact ⟨_, .above hc hm hp h⟩

theorem index_lt (h : p.Nearest name k c m) : c.index < p.classes.size := by
  cases h with
  | here hc => exact (Array.getElem?_eq_some_iff.1 (fetch_eq_ok_iff.1 hc)).1
  | above hc => exact (Array.getElem?_eq_some_iff.1 (fetch_eq_ok_iff.1 hc)).1

/-- No class is passed twice, so the distance is less than the number of classes. -/
theorem lt_size (h : p.Nearest name k c m) : k < p.classes.size := by
  have hat : ∀ i : Fin (k + 1), ∃ c', p.Nearest name i c' m := fun i =>
    h.exists_at i (Nat.le_of_lt_succ i.isLt)
  choose f hf using hat
  let g : Fin (k + 1) → Fin p.classes.size := fun i => ⟨(f i).index, (hf i).index_lt⟩
  have hg : Function.Injective g := by
    intro i j hij
    have heq : f i = f j := Id.ext (Fin.ext_iff.1 hij)
    have hi := hf i
    rw [heq] at hi
    exact Fin.ext (hi.unique (hf j)).1
  have hcard := Fintype.card_le_of_injective g hg
  rwa [Fintype.card_fin, Fintype.card_fin] at hcard

theorem method (h : p.Nearest name k c m) : ∃ d, p.method m = .ok d ∧ d.isAbstract = false := by
  induction h with
  | here _ hm => exact (concrete?_eq_some_iff.1 hm).2
  | above _ _ _ _ ih => exact ih

end Nearest

theorem dispatch_eq_some_iff : p.dispatch c name = .ok (some m) ↔ ∃ k, p.Nearest name k c m := by
  rw [dispatch, dispatchWithin_eq_some_iff]
  constructor
  · intro h
    obtain ⟨k, -, h⟩ := h
    exact ⟨k, h⟩
  · intro h
    obtain ⟨k, h⟩ := h
    exact ⟨k, Nat.lt_succ_of_lt h.lt_size, h⟩

/-- Static and special calls start from their declared class, the others from the class of the
receiver. -/
theorem resolve_eq_some_iff {receiver : Option ClassId} {call : Call} :
    p.resolve receiver call = .ok (some m) ↔ ∃ c k, p.Nearest call.target.name k c m ∧
      if call.kind = .static ∨ call.kind = .special then c = call.target.owner
      else receiver = some c := by
  have hdispatch : ∀ c, p.dispatch c call.target.name = .ok (some m) ↔
      ∃ k, p.Nearest call.target.name k c m := fun _ => dispatch_eq_some_iff
  unfold resolve
  cases hk : call.kind with
  | static => simp [hdispatch]
  | special => simp [hdispatch]
  | virtual => cases receiver <;> simp [hdispatch]
  | interface => cases receiver <;> simp [hdispatch]

theorem method_of_resolve {receiver : Option ClassId} {call : Call}
    (h : p.resolve receiver call = .ok (some m)) :
    ∃ d, p.method m = .ok d ∧ d.isAbstract = false := by
  obtain ⟨c, k, h, -⟩ := resolve_eq_some_iff.1 h
  exact h.method

end ProgramFlow.Program
