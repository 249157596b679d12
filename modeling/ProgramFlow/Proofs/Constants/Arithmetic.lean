import Mathlib.Data.Int.Bitwise
import Mathlib.Data.Int.ModEq
import Mathlib.Tactic.Positivity
import Mathlib.Tactic.Ring
import ProgramFlow.Constants.Propagation
/-!
What is computed with constants, said on integers. Addition, subtraction and multiplication are
exact modulo `2 ^ 32`, division truncates, a shift multiplies or divides by a power of two, and the
bitwise operators act on two's complement.
-/
namespace ProgramFlow

namespace Operator

/-- The power of two that a shift multiplies or divides by. -/
def shiftFactor (b : Int) : Int :=
  2 ^ (b % 32).toNat

/-- The result that an operation on two integers of 32 bits has to have. -/
def Yields (op : Operator) (a b c : Int) : Prop :=
  match op with
  | add => c ≡ a + b [ZMOD 2 ^ 32]
  | sub => c ≡ a - b [ZMOD 2 ^ 32]
  | mul => c ≡ a * b [ZMOD 2 ^ 32]
  | div => c = if a = -2 ^ 31 ∧ b = -1 then -2 ^ 31 else a.tdiv b
  | rem => (c = 0 ∨ c.sign = a.sign) ∧ c.natAbs < b.natAbs ∧ b ∣ a - c
  | eq => c = if a = b then 1 else 0
  | ne => c = if a = b then 0 else 1
  | lt => c = if a < b then 1 else 0
  | gt => c = if b < a then 1 else 0
  | le => c = if a ≤ b then 1 else 0
  | ge => c = if b ≤ a then 1 else 0
  | shl => c ≡ a * shiftFactor b [ZMOD 2 ^ 32]
  | shr => c = a.fdiv (shiftFactor b)
  | ushr => c ≡ (a % 2 ^ 32).fdiv (shiftFactor b) [ZMOD 2 ^ 32]
  | and => ∀ i, c.testBit i = (a.testBit i && b.testBit i)
  | or => ∀ i, c.testBit i = (a.testBit i || b.testBit i)
  | xor => ∀ i, c.testBit i = (a.testBit i ^^ b.testBit i)

theorem shiftFactor_pos (b : Int) : 0 < shiftFactor b := by
  unfold shiftFactor
  positivity

section Words

theorem bmod_modEq (x : Int) : x.bmod (2 ^ 32) ≡ x [ZMOD 2 ^ 32] :=
  Int.bmod_emod

theorem toInt_modEq (x : BitVec 32) : x.toInt ≡ x.toNat [ZMOD 2 ^ 32] := by
  rw [BitVec.toInt_eq_toNat_bmod]
  exact bmod_modEq _

theorem toNat_eq_emod (x : BitVec 32) : (x.toNat : Int) = x.toInt % 2 ^ 32 := by
  have := x.isLt
  rw [toInt_modEq x, Int.emod_eq_of_lt (by omega) (by omega)]

/-- Above its 32 bits an integer goes on with its sign. -/
theorem testBit_toInt (x : BitVec 32) (i : Nat) :
    x.toInt.testBit i = if i < 32 then x.getLsbD i else x.msb := by
  have hx : x.toNat < 2 ^ 32 := x.isLt
  rw [BitVec.toInt_eq_msb_cond]
  by_cases hm : x.msb = true
  · have hneg : (x.toNat : Int) - (2 ^ 32 : Nat) = Int.negSucc (2 ^ 32 - (x.toNat + 1)) := by
      omega
    rw [if_pos hm, hneg]
    simp only [Int.testBit]
    rw [Nat.testBit_two_pow_sub_succ hx]
    by_cases hi : i < 32
    · simp [hi, BitVec.getLsbD]
    · simp [hi, hm]
  · rw [if_neg hm]
    simp only [Int.testBit]
    by_cases hi : i < 32
    · simp [hi, BitVec.getLsbD]
    · have hxi : x.toNat < 2 ^ i := hx.trans_le (Nat.pow_le_pow_right (by decide) (by omega))
      rw [if_neg hi, Nat.testBit_eq_false_of_lt hxi]
      simpa using hm

/-- A bitwise operation on words acts on all bits of the integers, the sign being one of them. -/
theorem testBit_of_bitwise {x y z : BitVec 32} {f : Bool → Bool → Bool}
    (h : ∀ i, i < 32 → z.getLsbD i = f (x.getLsbD i) (y.getLsbD i)) (i : Nat) :
    z.toInt.testBit i = f (x.toInt.testBit i) (y.toInt.testBit i) := by
  simp only [testBit_toInt]
  by_cases hi : i < 32
  · simp only [if_pos hi, h i hi]
  · simp only [if_neg hi, BitVec.msb_eq_getLsbD_last]
    exact h 31 (by decide)

end Words

section Shifts

theorem toNat_smod (b : Int32) : (b.toBitVec.smod 32).toNat = (b.toInt % 32).toNat := by
  have h : (b.toBitVec.smod 32).toInt = b.toInt % 32 := by
    rw [BitVec.toInt_smod]
    exact Int.fmod_eq_emod_of_nonneg _ (by decide)
  have := BitVec.toInt_eq_toNat_cond (b.toBitVec.smod 32)
  have := (b.toBitVec.smod 32).isLt
  omega

theorem toNat_umod (b : Int32) : (b.toUInt32.toBitVec % 32).toNat = (b.toInt % 32).toNat := by
  have h : (b.toBitVec.toNat : Int) = b.toInt % 2 ^ 32 := toNat_eq_emod b.toBitVec
  rw [BitVec.toNat_umod, Int32.toBitVec_toUInt32]
  change b.toBitVec.toNat % 32 = _
  omega

theorem toInt_shiftLeft_modEq (a b : Int32) :
    (a <<< b).toInt ≡ a.toInt * shiftFactor b.toInt [ZMOD 2 ^ 32] := by
  change (a <<< b).toBitVec.toInt ≡ _ [ZMOD 2 ^ 32]
  rw [Int32.toBitVec_shiftLeft, BitVec.shiftLeft_eq', BitVec.toInt_shiftLeft, toNat_smod,
    Nat.shiftLeft_eq, Nat.cast_mul, Nat.cast_pow]
  exact (bmod_modEq _).trans ((toInt_modEq a.toBitVec).symm.mul_right _)

theorem toInt_shiftRight (a b : Int32) :
    (a >>> b).toInt = a.toInt.fdiv (shiftFactor b.toInt) := by
  change (a >>> b).toBitVec.toInt = _
  rw [Int32.toBitVec_shiftRight, BitVec.sshiftRight_eq', BitVec.toInt_sshiftRight, toNat_smod,
    Int.shiftRight_eq_div_pow, Int.fdiv_eq_ediv_of_nonneg _ (shiftFactor_pos _).le, Nat.cast_pow]
  rfl

theorem toInt_logicalShift_modEq (a b : Int32) :
    (a.toUInt32 >>> b.toUInt32).toInt32.toInt ≡
      (a.toInt % 2 ^ 32).fdiv (shiftFactor b.toInt) [ZMOD 2 ^ 32] := by
  refine (toInt_modEq (a.toUInt32 >>> b.toUInt32).toInt32.toBitVec).trans ?_
  have ha : (a.toBitVec.toNat : Int) = a.toInt % 2 ^ 32 := toNat_eq_emod a.toBitVec
  rw [UInt32.toBitVec_toInt32, UInt32.toBitVec_shiftRight, BitVec.ushiftRight_eq',
    BitVec.toNat_ushiftRight, toNat_umod, Int32.toBitVec_toUInt32, Nat.shiftRight_eq_div_pow,
    Int.fdiv_eq_ediv_of_nonneg _ (shiftFactor_pos _).le, ← ha, Int.natCast_ediv, Nat.cast_pow]
  rfl

end Shifts

section Division

theorem toInt_ne_zero {b : Int32} (h : b ≠ 0) : b.toInt ≠ 0 :=
  fun h' => h (Int32.toInt_inj.1 h')

theorem toInt_div_eq (a b : Int32) :
    (a / b).toInt =
      if a.toInt = -2 ^ 31 ∧ b.toInt = -1 then -2 ^ 31 else a.toInt.tdiv b.toInt := by
  split
  · next h => rw [Int32.toInt_div, h.1, h.2]; rfl
  · next h =>
    rcases not_and_or.1 h with ha | hb
    · exact Int32.toInt_div_of_ne_left a b (fun h => ha (by subst h; rfl))
    · exact Int32.toInt_div_of_ne_right a b (fun h => hb (by subst h; rfl))

theorem sign_mod (a b : Int32) : (a % b).toInt = 0 ∨ (a % b).toInt.sign = a.toInt.sign := by
  rw [Int32.toInt_mod, ← Int.sign_eq_zero_iff_zero, Int.sign_tmod]
  split <;> simp

theorem natAbs_mod_lt {a b : Int32} (h : b ≠ 0) : (a % b).toInt.natAbs < b.toInt.natAbs := by
  rw [Int32.toInt_mod, Int.natAbs_tmod]
  exact Nat.mod_lt _ (Int.natAbs_pos.2 (toInt_ne_zero h))

theorem dvd_sub_mod (a b : Int32) : b.toInt ∣ a.toInt - (a % b).toInt := by
  rw [Int32.toInt_mod, Int.tmod_def]
  exact ⟨a.toInt.tdiv b.toInt, by ring⟩

/-- Quotient and remainder make up the dividend, up to the one quotient that overflows. -/
theorem div_mul_add_mod_modEq (a b : Int32) :
    a.toInt ≡ (a / b).toInt * b.toInt + (a % b).toInt [ZMOD 2 ^ 32] := by
  have hq : (a / b).toInt ≡ a.toInt.tdiv b.toInt [ZMOD 2 ^ 32] := by
    rw [Int32.toInt_div]
    exact bmod_modEq _
  have h : a.toInt = a.toInt.tdiv b.toInt * b.toInt + (a % b).toInt := by
    rw [Int32.toInt_mod]
    exact (Int.tdiv_mul_add_tmod _ _).symm
  calc a.toInt ≡ a.toInt.tdiv b.toInt * b.toInt + (a % b).toInt [ZMOD 2 ^ 32] := by rw [← h]
    _ ≡ (a / b).toInt * b.toInt + (a % b).toInt [ZMOD 2 ^ 32] :=
      ((hq.mul_right _).add_right _).symm

end Division

theorem toInt_truth (c : Bool) : (truth c).toInt = if c then 1 else 0 := by
  cases c <;> rfl

theorem toInt_add_modEq (a b : Int32) : (a + b).toInt ≡ a.toInt + b.toInt [ZMOD 2 ^ 32] := by
  rw [Int32.toInt_add]
  exact bmod_modEq _

theorem toInt_sub_modEq (a b : Int32) : (a - b).toInt ≡ a.toInt - b.toInt [ZMOD 2 ^ 32] := by
  rw [Int32.toInt_sub]
  exact bmod_modEq _

theorem toInt_mul_modEq (a b : Int32) : (a * b).toInt ≡ a.toInt * b.toInt [ZMOD 2 ^ 32] := by
  rw [Int32.toInt_mul]
  exact bmod_modEq _

theorem yields_of_apply {op : Operator} {a b c : Int32} (h : op.apply a b = some c) :
    op.Yields a.toInt b.toInt c.toInt := by
  cases op with
  | add => cases h; exact toInt_add_modEq a b
  | sub => cases h; exact toInt_sub_modEq a b
  | mul => cases h; exact toInt_mul_modEq a b
  | div =>
    obtain ⟨-, rfl⟩ : b ≠ 0 ∧ a / b = c := by simpa [apply] using h
    exact toInt_div_eq a b
  | rem =>
    obtain ⟨hb, rfl⟩ : b ≠ 0 ∧ a % b = c := by simpa [apply] using h
    exact ⟨sign_mod a b, natAbs_mod_lt hb, dvd_sub_mod a b⟩
  | eq => cases h; simp [Yields, toInt_truth, Int32.toInt_inj]
  | ne => cases h; simp [Yields, toInt_truth, Int32.toInt_inj]
  | lt => cases h; simp [Yields, toInt_truth, Int32.lt_iff_toInt_lt]
  | gt => cases h; simp [Yields, toInt_truth, Int32.lt_iff_toInt_lt]
  | le => cases h; simp [Yields, toInt_truth, Int32.le_iff_toInt_le]
  | ge => cases h; simp [Yields, toInt_truth, Int32.le_iff_toInt_le]
  | shl => cases h; exact toInt_shiftLeft_modEq a b
  | shr => cases h; exact toInt_shiftRight a b
  | ushr => cases h; exact toInt_logicalShift_modEq a b
  | and =>
    cases h
    exact testBit_of_bitwise (x := a.toBitVec) (y := b.toBitVec) fun i _ => BitVec.getLsbD_and
  | or =>
    cases h
    exact testBit_of_bitwise (x := a.toBitVec) (y := b.toBitVec) fun i _ => BitVec.getLsbD_or
  | xor =>
    cases h
    exact testBit_of_bitwise (x := a.toBitVec) (y := b.toBitVec) fun i _ => BitVec.getLsbD_xor

end Operator

namespace Fact

variable {f : Fact} {x y : VarId} {a b : Int32}

theorem evaluate_of_apply {op : Operator} {c : Int32} (hx : f.get x = .constant a)
    (hy : f.get y = .constant b) (h : op.apply a b = some c) :
    f.evaluate ⟨op, x, y⟩ = .constant c := by
  rw [evaluate, hx, hy]
  exact Operator.applyValues_of_apply h

theorem evaluate_eq_undef_iff {op : Operator} (hx : f.get x = .constant a)
    (hy : f.get y = .constant b) :
    f.evaluate ⟨op, x, y⟩ = .undef ↔ op.divides = true ∧ b = 0 := by
  constructor
  · intro hundef
    by_contra hdiv
    obtain ⟨c, hc⟩ := Option.isSome_iff_exists.1 (Operator.isSome_apply (a := a) hdiv)
    rw [evaluate_of_apply hx hy hc] at hundef
    cases hundef
  · intro hdiv
    rw [evaluate, hy]
    exact Operator.applyValues_of_divides hdiv _

/-- On two constants every operation computes the arithmetic of 32-bit integers: it has no value
exactly if it divides by zero, and otherwise the result that the integers ask for. -/
theorem evaluate_computes (hx : f.get x = .constant a) (hy : f.get y = .constant b) :
    (∀ op : Operator, f.evaluate ⟨op, x, y⟩ = .undef ↔ (op = .div ∨ op = .rem) ∧ b = 0) ∧
    (∀ op : Operator, ¬ ((op = .div ∨ op = .rem) ∧ b = 0) →
      ∃ c, op.apply a b = some c ∧ f.evaluate ⟨op, x, y⟩ = .constant c ∧
        -2 ^ 31 ≤ c.toInt ∧ c.toInt < 2 ^ 31 ∧ op.Yields a.toInt b.toInt c.toInt) ∧
    (b ≠ 0 → ∃ q r : Int32,
      f.evaluate ⟨.div, x, y⟩ = .constant q ∧ f.evaluate ⟨.rem, x, y⟩ = .constant r ∧
        a.toInt ≡ q.toInt * b.toInt + r.toInt [ZMOD 2 ^ 32]) := by
  have hdiv : ∀ op : Operator, op.divides = true ↔ op = .div ∨ op = .rem := by
    intro op
    cases op <;> simp [Operator.divides]
  simp only [← hdiv]
  refine ⟨fun op => evaluate_eq_undef_iff hx hy, fun op hop => ?_, fun hb => ?_⟩
  · obtain ⟨c, hc⟩ := Option.isSome_iff_exists.1 (Operator.isSome_apply (a := a) hop)
    exact ⟨c, hc, evaluate_of_apply hx hy hc, c.le_toInt, c.toInt_lt, Operator.yields_of_apply hc⟩
  · have hq : Operator.div.apply a b = some (a / b) := if_neg hb
    have hr : Operator.rem.apply a b = some (a % b) := if_neg hb
    exact ⟨_, _, evaluate_of_apply hx hy hq, evaluate_of_apply hx hy hr,
      Operator.div_mul_add_mod_modEq a b⟩

/-- The least integer divided by minus one is itself. -/
theorem evaluate_div_overflow :
    (Fact.ofList [(⟨0⟩, .constant (-2147483648)), (⟨1⟩, .constant (-1))]).evaluate
      ⟨.div, ⟨0⟩, ⟨1⟩⟩ = .constant (-2147483648) := by
  obtain ⟨c, -, hc, -, -, hval⟩ := (evaluate_computes (x := ⟨0⟩) (y := ⟨1⟩)
    (f := .ofList [(⟨0⟩, .constant (-2147483648)), (⟨1⟩, .constant (-1))])
    (a := -2147483648) (b := -1) (by decide) (by decide)).2.1 .div (by decide)
  rw [hc, ← Int32.ofInt_toInt c, show c.toInt = -2 ^ 31 from hval]
  rfl

end Fact

end ProgramFlow
