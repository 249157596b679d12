import ProgramFlow.Id
/-!
Values that can be told apart by lists of numbers, which serve as ordered keys.
-/
namespace ProgramFlow

class Coded (α : Type) where
  code : α → List Nat
  code_injective : ∀ {a b : α}, code a = code b → a = b

export Coded (code code_injective)

theorem code_inj {α : Type} [Coded α] {a b : α} : code a = code b ↔ a = b :=
  ⟨code_injective, congrArg code⟩

instance {k : Kind} : Coded (Id k) where
  code a := [a.index]
  code_injective {a b} h := by
    cases a
    cases b
    simpa using h

end ProgramFlow
