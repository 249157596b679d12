import Mathlib.Data.Finset.Card
import Mathlib.Data.Finset.Disjoint
import ProgramFlow.Collection.SortedSet
import ProgramFlow.Id
/-!
Sets in registers. Whatever operations are run on any number of them, the sorted lists do what the
mathematical sets do, answer every question about them and tell when they have grown.
-/
namespace ProgramFlow

namespace Registers

variable {ω σ τ : Type}

/-- Runs operations one after the other. Each of them changes one register, and may read all. -/
def run (act : ω → σ → (Nat → σ) → σ) (steps : List (Nat × ω)) (s : Nat → σ) : Nat → σ :=
  steps.foldl (fun s step => Function.update s step.1 (act step.2 (s step.1) s)) s

/-- A view of the registers that each operation keeps in step is kept in step by a run. -/
theorem view_run {view : σ → τ} {act : ω → σ → (Nat → σ) → σ} {act' : ω → τ → (Nat → τ) → τ}
    (h : ∀ o x s, view (act o x s) = act' o (view x) (view ∘ s)) (steps : List (Nat × ω))
    (s : Nat → σ) : view ∘ run act steps s = run act' steps (view ∘ s) := by
  induction steps generalizing s with
  | nil => rfl
  | cons step steps ih =>
    have hstep : view ∘ Function.update s step.1 (act step.2 (s step.1) s) =
        Function.update (view ∘ s) step.1 (act' step.2 (view (s step.1)) (view ∘ s)) := by
      rw [Function.comp_update, h]
    exact (ih _).trans (congrArg (run act' steps) hstep)

end Registers

namespace SortedSet

variable {α : Type}

/-- What can be done to the set in a register. -/
inductive Step (α : Type)
  | clear
  | singleton (a : α)
  | collect (items : List α)
  | insert (a : α)
  | union (other : Nat)
  | difference (left right : Nat)

variable [DecidableEq α]

namespace Step

/-- What an operation does to finite sets. -/
def onFinsets : Step α → Finset α → (Nat → Finset α) → Finset α
  | clear, _, _ => ∅
  | singleton a, _, _ => {a}
  | collect items, _, _ => items.toFinset
  | insert a, t, _ => Insert.insert a t
  | union other, t, sets => t ∪ sets other
  | difference left right, _, sets => sets left \ sets right

/-- Whether an insertion or a union makes the set grow. -/
def grows : Step α → Finset α → (Nat → Finset α) → Option Bool
  | insert a, t, _ => some (decide (t ⊂ Insert.insert a t))
  | union other, t, sets => some (decide (t ⊂ t ∪ sets other))
  | _, _, _ => none

variable [Ord α] [Std.TransOrd α] [Std.LawfulEqOrd α]

def act : Step α → SortedSet α → (Nat → SortedSet α) → SortedSet α
  | clear, _, _ => ∅
  | singleton a, _, _ => .singleton a
  | collect items, _, _ => .ofList items
  | insert a, s, _ => (s.add a).value
  | union other, s, sets => (s.addAll (sets other)).value
  | difference left right, _, sets => (sets left).difference (sets right)

/-- What an insertion or a union reports. -/
def report : Step α → SortedSet α → (Nat → SortedSet α) → Option Bool
  | insert a, s, _ => some (s.add a).changed
  | union other, s, sets => some (s.addAll (sets other)).changed
  | _, _, _ => none

end Step

variable [Ord α]

def toFinset (s : SortedSet α) : Finset α := s.toList.toFinset

@[simp] theorem mem_toFinset {s : SortedSet α} {a : α} : a ∈ s.toFinset ↔ a ∈ s :=
  List.mem_toFinset

variable [Std.TransOrd α] [Std.LawfulEqOrd α]

theorem isSubset_iff_toFinset {s t : SortedSet α} :
    s.isSubset t = true ↔ s.toFinset ⊆ t.toFinset := by
  simp only [isSubset_iff, Finset.subset_iff, mem_toFinset]

theorem intersects_iff_toFinset {s t : SortedSet α} :
    s.intersects t = true ↔ ¬ Disjoint s.toFinset t.toFinset := by
  simp only [intersects_iff, Finset.not_disjoint_iff, mem_toFinset]

theorem toFinset_inj {s t : SortedSet α} : s.toFinset = t.toFinset ↔ s = t := by
  constructor
  · intro h
    apply ext
    intro a
    rw [← mem_toFinset, h, mem_toFinset]
  · exact congrArg toFinset

theorem size_eq_card (s : SortedSet α) : s.size = s.toFinset.card :=
  (List.toFinset_card_of_nodup s.nodup).symm

theorem toFinset_union (s t : SortedSet α) : (s.union t).toFinset = s.toFinset ∪ t.toFinset := by
  ext a
  simp

theorem addAll_changed_iff_ssubset {s t : SortedSet α} :
    (s.addAll t).changed = true ↔ s.toFinset ⊂ s.toFinset ∪ t.toFinset := by
  have hsub : s.toFinset ⊆ s.toFinset ∪ t.toFinset := Finset.subset_union_left
  rw [addAll_changed, size_eq_card, size_eq_card, toFinset_union, ne_comm, ne_eq,
    Finset.ssubset_iff_subset_ne, and_iff_right hsub]
  exact not_congr ⟨fun h => Finset.eq_of_subset_of_card_le hsub h.ge, congrArg Finset.card⟩

namespace Step

theorem toFinset_act (o : Step α) (s : SortedSet α) (sets : Nat → SortedSet α) :
    (o.act s sets).toFinset = o.onFinsets s.toFinset (toFinset ∘ sets) := by
  cases o with
  | union other => exact toFinset_union s (sets other)
  | _ =>
    ext a
    simp [act, onFinsets, SortedSet.singleton, add]

theorem report_eq_grows (o : Step α) (s : SortedSet α) (sets : Nat → SortedSet α) :
    o.report s sets = o.grows s.toFinset (toFinset ∘ sets) := by
  cases o with
  | insert a =>
    have hgrows : s.toFinset ⊂ Insert.insert a s.toFinset ↔ a ∉ s := by
      rw [Finset.ssubset_iff_subset_ne, ne_comm, ne_eq, Finset.insert_eq_self, mem_toFinset]
      exact and_iff_right (Finset.subset_insert a _)
    simp [report, grows, add, contains, hgrows]
  | union other =>
    apply congrArg some
    rw [Bool.eq_iff_iff, decide_eq_true_iff]
    exact addAll_changed_iff_ssubset
  | _ => rfl

end Step

/-- The registers hold sorted lists of the elements of the sets, each element once. Each question about
them is answered as it is for the sets, and what an operation would report is whether the set
grows. -/
structure Mirrors (registers : Nat → SortedSet α) (sets : Nat → Finset α) : Prop where
  increasing : ∀ i, (registers i).toList.Pairwise fun a b => compare a b = .lt
  elements : ∀ i a, a ∈ (registers i).toList ↔ a ∈ sets i
  contains : ∀ i a, (registers i).contains a = true ↔ a ∈ sets i
  size : ∀ i, (registers i).size = (sets i).card
  isEmpty : ∀ i, (registers i).isEmpty = true ↔ sets i = ∅
  isSubset : ∀ i j, (registers i).isSubset (registers j) = true ↔ sets i ⊆ sets j
  intersects : ∀ i j, (registers i).intersects (registers j) = true ↔
    ¬ Disjoint (sets i) (sets j)
  difference : ∀ i j a, a ∈ ((registers i).difference (registers j)).toList ↔
    a ∈ sets i ∧ a ∉ sets j
  eq_iff : ∀ i j, registers i = registers j ↔ sets i = sets j
  reports : ∀ (o : Step α) i, o.report (registers i) registers = o.grows (sets i) sets

theorem mirrors_toFinset (registers : Nat → SortedSet α) :
    Mirrors registers (toFinset ∘ registers) where
  increasing i := (registers i).increasing
  elements _ _ := mem_toFinset.symm
  contains i a := by simp [SortedSet.contains]
  size i := size_eq_card (registers i)
  isEmpty i := by simp [isEmpty_iff, Finset.eq_empty_iff_forall_notMem]
  isSubset _ _ := isSubset_iff_toFinset
  intersects _ _ := intersects_iff_toFinset
  difference i j a := by simp [mem_toList]
  eq_iff _ _ := toFinset_inj.symm
  reports o i := o.report_eq_grows (registers i) registers

/-- After every sequence of operations on empty registers, these hold the sets that the same
operations make of empty sets. -/
theorem mirrors_run (steps : List (Nat × Step α)) :
    Mirrors (Registers.run Step.act steps fun _ => ∅)
      (Registers.run Step.onFinsets steps fun _ => ∅) := by
  have hview : toFinset ∘ Registers.run Step.act steps (fun _ : Nat => (∅ : SortedSet α)) =
      Registers.run Step.onFinsets steps fun _ => ∅ :=
    Registers.view_run Step.toFinset_act steps fun _ => ∅
  rw [← hview]
  exact mirrors_toFinset _

/-- A set is listed out of order and twice, joined to another and taken away from it again. -/
def Step.detour : List (Nat × Step ObjId) :=
  [(0, .collect [⟨3⟩, ⟨1⟩, ⟨3⟩]), (1, .insert ⟨2⟩), (1, .union 0), (2, .difference 1 0)]

theorem mirrors_run_detour :
    ((Registers.run Step.act Step.detour fun _ => ∅) 1).toList = [⟨1⟩, ⟨2⟩, ⟨3⟩] ∧
    ((Registers.run Step.act Step.detour fun _ => ∅) 2).toList = [⟨2⟩] ∧
    Mirrors (Registers.run Step.act Step.detour fun _ => ∅)
      (Registers.run Step.onFinsets Step.detour fun _ => ∅) :=
  ⟨by decide, by decide, mirrors_run Step.detour⟩

end SortedSet

end ProgramFlow
