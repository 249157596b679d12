/-!
The lattice of constant propagation. `undef` is below every constant and `nac`, not a constant, is
above; merging two values goes up to the least value above both.
-/
namespace ProgramFlow

inductive Value
  | undef
  | constant (value : Int32)
  | nac
  deriving DecidableEq, Repr, Inhabited

namespace Value

def merge : Value → Value → Value
  | nac, _ => nac
  | _, nac => nac
  | undef, x => x
  | x, undef => x
  | constant a, constant b => if a = b then constant a else nac

instance : LE Value := ⟨fun x y => x.merge y = y⟩

instance (x y : Value) : Decidable (x ≤ y) := inferInstanceAs (Decidable (x.merge y = y))

def constant? : Value → Option Int32
  | constant c => some c
  | _ => none

def text : Value → String
  | undef => "UNDEF"
  | constant c => toString c.toInt
  | nac => "NAC"

/-- Two array indices may be equal, judging by their values. -/
def mayEqual : Value → Value → Bool
  | undef, _ => false
  | _, undef => false
  | constant a, constant b => a == b
  | _, _ => true

/-- Replaces a constant and keeps the other two values. -/
def mapConstant (f : Int32 → Int32) : Value → Value
  | constant c => constant (f c)
  | x => x

theorem le_def {x y : Value} : x ≤ y ↔ x.merge y = y := .rfl

theorem merge_comm (x y : Value) : x.merge y = y.merge x := by
  cases x <;> cases y <;> grind [merge]

theorem merge_assoc (x y z : Value) : (x.merge y).merge z = x.merge (y.merge z) := by
  cases x <;> cases y <;> cases z <;> grind [merge]

@[simp] theorem merge_self (x : Value) : x.merge x = x := by
  cases x <;> simp [merge]

@[simp] theorem undef_merge (x : Value) : undef.merge x = x := by
  cases x <;> rfl

@[simp] theorem merge_undef (x : Value) : x.merge undef = x := by
  cases x <;> rfl

theorem merge_eq_undef_iff {x y : Value} : x.merge y = undef ↔ x = undef ∧ y = undef := by
  cases x <;> cases y <;> grind [merge]

@[refl] theorem le_refl (x : Value) : x ≤ x := merge_self x

theorem le_trans {x y z : Value} (h : x ≤ y) (h' : y ≤ z) : x ≤ z := by
  rw [le_def] at *
  rw [← h', ← merge_assoc, h]

theorem le_antisymm {x y : Value} (h : x ≤ y) (h' : y ≤ x) : x = y := by
  rw [le_def] at *
  rw [← h', merge_comm, h]

@[simp] theorem undef_le (x : Value) : undef ≤ x := undef_merge x

@[simp] theorem le_nac (x : Value) : x ≤ nac := by
  cases x <;> rfl

theorem le_merge_left (x y : Value) : x ≤ x.merge y := by
  rw [le_def, ← merge_assoc, merge_self]

theorem le_merge_right (x y : Value) : y ≤ x.merge y := by
  rw [merge_comm]
  exact le_merge_left y x

theorem merge_le {x y z : Value} (h : x ≤ z) (h' : y ≤ z) : x.merge y ≤ z := by
  rw [le_def] at *
  rw [merge_assoc, h', h]

theorem merge_mono {x y x' y' : Value} (h : x ≤ x') (h' : y ≤ y') : x.merge y ≤ x'.merge y' :=
  merge_le (le_trans h (le_merge_left _ _)) (le_trans h' (le_merge_right _ _))

end Value

end ProgramFlow
