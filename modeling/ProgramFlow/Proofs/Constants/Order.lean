import Mathlib.Algebra.BigOperators.Group.Finset.Basic
import Mathlib.Algebra.Order.BigOperators.Group.Finset
import Mathlib.Order.Lattice
import ProgramFlow.Constants.Fact
/-!
The order of the facts of constant propagation. It is a semilattice in which merging gives least
upper bounds, and a fact about finitely many variables can rise only so often.
-/
namespace ProgramFlow

namespace Value

instance : SemilatticeSup Value where
  le_refl := le_refl
  le_trans _ _ _ := le_trans
  le_antisymm _ _ := le_antisymm
  sup := merge
  le_sup_left := le_merge_left
  le_sup_right := le_merge_right
  sup_le _ _ _ := merge_le

instance : OrderBot Value where
  bot := undef
  bot_le := undef_le

theorem sup_eq_merge (x y : Value) : x ⊔ y = x.merge y := rfl

def rank : Value → Nat
  | undef => 0
  | constant _ => 1
  | nac => 2

theorem rank_le_two (x : Value) : x.rank ≤ 2 := by
  cases x <;> simp [rank]

theorem rank_lt_rank {x y : Value} (h : x < y) : x.rank < y.rank := by
  obtain ⟨hle, hne⟩ := lt_iff_le_and_ne.1 h
  rw [le_def] at hle
  cases x <;> cases y <;> simp_all [rank, merge]

theorem mapConstant_mono (f : Int32 → Int32) : Monotone (mapConstant f) := by
  intro x y h
  rw [le_def] at h ⊢
  cases x <;> cases y <;> simp_all [mapConstant, merge]

theorem le_iff {x y : Value} : x ≤ y ↔ x = undef ∨ x = y ∨ y = nac := by
  rw [le_def]
  cases x <;> cases y <;> grind [merge]

theorem constant_le_iff {c : Int32} {x : Value} : constant c ≤ x ↔ x = constant c ∨ x = nac := by
  rw [le_def]
  cases x <;> grind [merge]

theorem le_constant_iff {c : Int32} {x : Value} : x ≤ constant c ↔ x = undef ∨ x = constant c := by
  rw [le_def]
  cases x <;> grind [merge]

section LeastUpperBound

variable {S : Set Value}

theorem isLUB_undef_iff : IsLUB S undef ↔ ∀ x ∈ S, x = undef := by
  constructor
  · intro h x hx
    exact le_bot_iff.1 (h.1 hx)
  · intro h
    exact ⟨fun x hx => (h x hx).le, fun _ _ => undef_le _⟩

theorem mem_of_isLUB_constant {c : Int32} (h : IsLUB S (constant c)) : constant c ∈ S := by
  by_contra hc
  have hundef : undef ∈ upperBounds S := by
    intro x hx
    rcases le_constant_iff.1 (h.1 hx) with rfl | rfl
    · exact le_rfl
    · exact absurd hx hc
  cases h.2 hundef

/-- Only unknown values or different constants merge to an unknown value. -/
theorem of_isLUB_nac (h : IsLUB S nac) :
    nac ∈ S ∨ ∃ a b, a ≠ b ∧ constant a ∈ S ∧ constant b ∈ S := by
  by_contra! hnone
  obtain ⟨hnac, hsame⟩ := hnone
  by_cases hex : ∃ a, constant a ∈ S
  · obtain ⟨a, ha⟩ := hex
    have hbound : constant a ∈ upperBounds S := by
      intro x hx
      cases x with
      | undef => exact undef_le _
      | constant b =>
        by_contra hle
        exact hsame a b (fun he => hle (he ▸ le_rfl)) ha hx
      | nac => exact absurd hx hnac
    cases h.2 hbound
  · have hbound : undef ∈ upperBounds S := by
      intro x hx
      cases x with
      | undef => exact le_rfl
      | constant a => exact absurd ⟨a, hx⟩ hex
      | nac => exact absurd hx hnac
    cases h.2 hbound

/-- What it takes for a merged value to stand for an integer. -/
theorem eq_constant_or_nac_iff {y : Value} (h : IsLUB S y) {c : Int32} :
    y = constant c ∨ y = nac ↔
      constant c ∈ S ∨ nac ∈ S ∨ ∃ a b, a ≠ b ∧ constant a ∈ S ∧ constant b ∈ S := by
  constructor
  · rintro (rfl | rfl)
    · exact .inl (mem_of_isLUB_constant h)
    · exact .inr (of_isLUB_nac h)
  · rintro (hc | hnac | ⟨a, b, hne, ha, hb⟩)
    · exact constant_le_iff.1 (h.1 hc)
    · exact .inr ((le_nac y).antisymm (h.1 hnac))
    · rcases constant_le_iff.1 (h.1 ha) with rfl | hy
      · rcases le_constant_iff.1 (h.1 hb) with hb | hb
        · cases hb
        · exact absurd (constant.inj hb).symm hne
      · exact .inr hy

end LeastUpperBound

end Value

namespace Fact

instance : LE Fact := ⟨fun f g => f.isBelow g = true⟩

theorem le_iff {f g : Fact} : f ≤ g ↔ ∀ v, f.get v ≤ g.get v := isBelow_iff

instance : SemilatticeSup Fact where
  le_refl _ := le_iff.2 fun _ => le_rfl
  le_trans _ _ _ h h' := le_iff.2 fun v => (le_iff.1 h v).trans (le_iff.1 h' v)
  le_antisymm _ _ h h' := ext fun v => (le_iff.1 h v).antisymm (le_iff.1 h' v)
  sup := merge
  le_sup_left f g := le_iff.2 fun v => by
    rw [get_merge]
    exact Value.le_merge_left _ _
  le_sup_right f g := le_iff.2 fun v => by
    rw [get_merge]
    exact Value.le_merge_right _ _
  sup_le f g k h h' := le_iff.2 fun v => by
    rw [get_merge]
    exact Value.merge_le (le_iff.1 h v) (le_iff.1 h' v)

instance : OrderBot Fact where
  bot := ∅
  bot_le _ := le_iff.2 fun _ => Value.undef_le _

theorem sup_eq_merge (f g : Fact) : f ⊔ g = f.merge g := rfl

theorem bot_eq_empty : (⊥ : Fact) = ∅ := rfl

theorem get_mono (v : VarId) : Monotone (get · v) := fun _ _ h => le_iff.1 h v

theorem set_mono {f g : Fact} {x y : Value} (h : f ≤ g) (hx : x ≤ y) (v : VarId) :
    f.set v x ≤ g.set v y := by
  apply le_iff.2
  intro w
  rw [get_set, get_set]
  split
  · exact hx
  · exact le_iff.1 h w

/-- Only the first `n` variables have a value. -/
def Within (n : Nat) (f : Fact) : Prop := ∀ v, f.get v ≠ .undef → v.index < n

theorem within_bot (n : Nat) : Within n ⊥ := fun _ h => absurd rfl h

theorem Within.merge {n : Nat} {f g : Fact} (hf : f.Within n) (hg : g.Within n) :
    (f.merge g).Within n := by
  intro v hv
  rw [get_merge] at hv
  by_contra hlt
  have hf : f.get v = .undef := not_not.1 fun h => hlt (hf v h)
  have hg : g.get v = .undef := not_not.1 fun h => hlt (hg v h)
  exact hv (Value.merge_eq_undef_iff.2 ⟨hf, hg⟩)

theorem Within.set {n : Nat} {f : Fact} {v : VarId} (h : f.Within n) (hv : v.index < n)
    (x : Value) : (f.set v x).Within n := by
  intro w hw
  rw [get_set] at hw
  split at hw
  · next he => rwa [he]
  · exact h w hw

theorem Within.unset {n : Nat} {f : Fact} (h : f.Within n) (v : VarId) :
    (f.set v .undef).Within n := by
  intro w hw
  rw [get_set] at hw
  split at hw
  · exact absurd rfl hw
  · exact h w hw

def rank (n : Nat) (f : Fact) : Nat := ∑ i ∈ Finset.range n, (f.get ⟨i⟩).rank

theorem rank_le (n : Nat) (f : Fact) : f.rank n ≤ 2 * n := by
  calc f.rank n ≤ ∑ _i ∈ Finset.range n, 2 := Finset.sum_le_sum fun _ _ => Value.rank_le_two _
    _ = 2 * n := by rw [Finset.sum_const, Finset.card_range, Nat.nsmul_eq_mul, Nat.mul_comm]

theorem rank_lt_rank {n : Nat} {f g : Fact} (hg : g.Within n) (h : f < g) :
    f.rank n < g.rank n := by
  obtain ⟨hle, hne⟩ := lt_iff_le_and_ne.1 h
  have hv : ∃ v, f.get v ≠ g.get v := by
    by_contra hall
    exact hne (ext fun v => not_not.1 fun hv => hall ⟨v, hv⟩)
  obtain ⟨v, hv⟩ := hv
  have hlt : f.get v < g.get v := lt_iff_le_and_ne.2 ⟨le_iff.1 hle v, hv⟩
  have hn : v.index < n := hg v fun hu => by
    rw [hu] at hlt
    exact not_lt_bot hlt
  refine Finset.sum_lt_sum (fun i _ => ?_) ⟨v.index, Finset.mem_range.2 hn, ?_⟩
  · rcases (le_iff.1 hle ⟨i⟩).lt_or_eq with hi | hi
    · exact (Value.rank_lt_rank hi).le
    · rw [hi]
  · exact Value.rank_lt_rank hlt

end Fact

end ProgramFlow
