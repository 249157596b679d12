import Mathlib.Data.List.Perm.Subperm
import Mathlib.Order.BoundedOrder.Basic
import Mathlib.Order.Lattice
import ProgramFlow.Collection.SortedSet
/-!
Finite sets ordered by inclusion, with unions as least upper bounds.
-/
namespace ProgramFlow.SortedSet

variable {α : Type} [Ord α] [DecidableEq α] [Std.TransOrd α] [Std.LawfulEqOrd α]

instance : LE (SortedSet α) := ⟨fun s t => s.isSubset t = true⟩

theorem le_iff {s t : SortedSet α} : s ≤ t ↔ ∀ a ∈ s, a ∈ t := isSubset_iff

instance : OrderBot (SortedSet α) where
  bot := ∅
  bot_le _ := le_iff.2 fun _ ha => absurd ha not_mem_empty

theorem bot_eq_empty : (⊥ : SortedSet α) = ∅ := rfl

instance : SemilatticeSup (SortedSet α) where
  le_refl _ := le_iff.2 fun _ => id
  le_trans _ _ _ h h' := le_iff.2 fun a ha => le_iff.1 h' a (le_iff.1 h a ha)
  le_antisymm _ _ h h' := ext fun a => ⟨le_iff.1 h a, le_iff.1 h' a⟩
  sup := union
  le_sup_left _ _ := le_iff.2 fun _ ha => mem_union.2 (.inl ha)
  le_sup_right _ _ := le_iff.2 fun _ ha => mem_union.2 (.inr ha)
  sup_le _ _ _ h h' := le_iff.2 fun a ha => (mem_union.1 ha).elim (le_iff.1 h a) (le_iff.1 h' a)

theorem sup_eq_union (s t : SortedSet α) : s ⊔ t = s.union t := rfl

theorem size_le_length {s : SortedSet α} {l : List α} (h : ∀ a ∈ s, a ∈ l) : s.size ≤ l.length :=
  (List.subperm_of_subset s.nodup h).length_le

theorem size_lt_size {s t : SortedSet α} (h : s < t) : s.size < t.size := by
  obtain ⟨hle, hne⟩ := lt_iff_le_and_ne.1 h
  by_contra hlt
  have hperm := (List.subperm_of_subset s.nodup (le_iff.1 hle)).perm_of_length_le
    (Nat.le_of_not_lt hlt)
  exact hne (ext fun _ => hperm.mem_iff)

end ProgramFlow.SortedSet
