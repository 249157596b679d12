import ProgramFlow.Collection.Roster
import ProgramFlow.Error
/-!
Tables whose rows are numbered in the order of their arrival. A row is found by its key, no two
rows share a key, and a number keeps its key for good.
-/
namespace ProgramFlow

/-- Rows with distinct keys, numbered from zero. -/
structure Numbering (k : Kind) {ρ κ : Type} [Coded κ] (key : ρ → κ) where
  roster : Roster key

namespace Numbering

variable {k : Kind} {ρ κ : Type} [Coded κ] {key : ρ → κ}

def empty : Numbering k key := ⟨∅⟩

def size (t : Numbering k key) : Nat := t.roster.size

/-- The rows in order. -/
def rows (t : Numbering k key) : List ρ := t.roster.toList

def get? (t : Numbering k key) (id : Id k) : Option ρ := t.roster.get? id.index

def row (t : Numbering k key) (id : Id k) : Outcome ρ := fetch t.roster.rows id

/-- The rows with their numbers, in order. -/
def toList (t : Numbering k key) : List (Id k × ρ) := t.rows.zipIdx.map fun (r, i) => (⟨i⟩, r)

def find? (t : Numbering k key) (x : κ) : Option (Id k) := (t.roster.position? x).map Id.mk

/-- The number of the row with the key of `r`; without one, `r` becomes the last row. -/
def ensure (t : Numbering k key) (r : ρ) : Id k × Numbering k key :=
  match t.find? (key r) with
  | some id => (id, t)
  | none => (⟨t.size⟩, ⟨t.roster.add r⟩)

theorem find?_eq_some_iff {t : Numbering k key} {x : κ} {id : Id k} :
    t.find? x = some id ↔ ∃ r, t.get? id = some r ∧ key r = x := by
  obtain ⟨i⟩ := id
  simp [find?, get?, Roster.position?_eq_some_iff]

theorem find?_eq_none_iff {t : Numbering k key} {x : κ} :
    t.find? x = none ↔ t.roster.contains x = false := by
  simp [find?, Roster.contains_eq_isSome]

/-- Numbers that have been given keep their rows. -/
theorem get?_ensure {t : Numbering k key} {r x : ρ} {id : Id k} (h : t.get? id = some x) :
    (t.ensure r).2.get? id = some x := by
  unfold ensure
  split
  · exact h
  · exact Roster.get?_add h

theorem get?_ensure_self (t : Numbering k key) (r : ρ) :
    ∃ x, (t.ensure r).2.get? (t.ensure r).1 = some x ∧ key x = key r := by
  unfold ensure
  split
  · next h => exact find?_eq_some_iff.1 h
  · next h =>
    rw [find?_eq_none_iff] at h
    exact ⟨r, by simp [get?, Roster.get?, Roster.rows_add h, size, Roster.size], rfl⟩

/-- Only the row that is ensured can be new. -/
theorem of_get?_ensure {t : Numbering k key} {r x : ρ} {id : Id k}
    (h : (t.ensure r).2.get? id = some x) : t.get? id = some x ∨ t.get? id = none ∧ x = r := by
  unfold ensure at h
  split at h
  · exact .inl h
  · next hr =>
    rw [find?_eq_none_iff] at hr
    simp only [get?, Roster.get?, Roster.rows_add hr, Array.getElem?_push] at h ⊢
    split at h
    · next hi => exact .inr ⟨by simp [hi], (Option.some.inj h).symm⟩
    · exact .inl h

/-- Rows with one key have one number. -/
theorem get?_injective {t : Numbering k key} {a b : Id k} {x y : ρ} (ha : t.get? a = some x)
    (hb : t.get? b = some y) (h : key x = key y) : a = b := by
  have ha := find?_eq_some_iff.2 ⟨x, ha, h⟩
  have hb := find?_eq_some_iff.2 ⟨y, hb, rfl⟩
  exact Option.some.inj (ha.symm.trans hb)

end Numbering

end ProgramFlow
