import Std.Data.TreeMap
import ProgramFlow.Collection.Coded
/-!
Rows in the order of their arrival, each found by its key. No two rows share a key, and a row never
changes its position.
-/
namespace ProgramFlow

structure Roster {ρ κ : Type} [Coded κ] (key : ρ → κ) where
  rows : Array ρ
  /-- The position of each key. -/
  index : Std.TreeMap (List Nat) Nat
  index_iff : ∀ x i, index[x]? = some i ↔ ∃ r, rows[i]? = some r ∧ code (key r) = x

namespace Roster

variable {ρ κ : Type} [Coded κ] {key : ρ → κ}

def empty : Roster key := ⟨#[], ∅, by simp⟩

instance : EmptyCollection (Roster key) := ⟨empty⟩

def size (t : Roster key) : Nat := t.rows.size

def toList (t : Roster key) : List ρ := t.rows.toList

def get? (t : Roster key) (i : Nat) : Option ρ := t.rows[i]?

def position? (t : Roster key) (x : κ) : Option Nat := t.index[code x]?

/-- Some row has the key. -/
def contains (t : Roster key) (x : κ) : Bool := t.index.contains (code x)

theorem position?_eq_some_iff {t : Roster key} {x : κ} {i : Nat} :
    t.position? x = some i ↔ ∃ r, t.get? i = some r ∧ key r = x :=
  (t.index_iff (code x) i).trans (by simp [get?, code_inj])

theorem contains_eq_isSome (t : Roster key) (x : κ) : t.contains x = (t.position? x).isSome := by
  simp [contains, position?]

theorem contains_iff {t : Roster key} {x : κ} : t.contains x ↔ ∃ r ∈ t.toList, key r = x := by
  rw [contains_eq_isSome, Option.isSome_iff_exists]
  simp only [position?_eq_some_iff, get?, toList, Array.mem_toList_iff, Array.mem_iff_getElem?]
  grind

/-- A row with a new key takes the position after the last. -/
theorem index_iff_push {rows : Array ρ} {index : Std.TreeMap (List Nat) Nat} {r : ρ}
    (h : ∀ x i, index[x]? = some i ↔ ∃ s, rows[i]? = some s ∧ code (key s) = x)
    (hr : index[code (key r)]? = none) (x : List Nat) (i : Nat) :
    (index.insert (code (key r)) rows.size)[x]? = some i ↔
      ∃ s, (rows.push r)[i]? = some s ∧ code (key s) = x := by
  rw [Std.TreeMap.getElem?_insert]
  simp only [Array.getElem?_push]
  by_cases hx : code (key r) = x
  · subst hx
    simp only [Std.ReflCmp.compare_self, if_true, Option.some.injEq]
    constructor
    · rintro rfl
      exact ⟨r, by simp, rfl⟩
    · rintro ⟨s, hs, hk⟩
      split at hs
      · next hi => exact hi.symm
      · have := (h _ i).2 ⟨s, hs, hk⟩
        rw [hr] at this
        cases this
  · simp only [Std.LawfulEqCmp.compare_eq_iff_eq, hx, if_false, h]
    constructor
    · rintro ⟨s, hs, hk⟩
      have : i < rows.size := (Array.getElem?_eq_some_iff.1 hs).1
      exact ⟨s, by rw [if_neg (by omega)]; exact hs, hk⟩
    · rintro ⟨s, hs, hk⟩
      split at hs
      · simp only [Option.some.injEq] at hs
        exact absurd (hs ▸ hk) hx
      · exact ⟨s, hs, hk⟩

/-- Adds a row at the end, unless its key is there already. -/
def add (t : Roster key) (r : ρ) : Roster key :=
  match h : t.index[code (key r)]? with
  | some _ => t
  | none =>
    let index := t.index.insert (code (key r)) t.rows.size
    ⟨t.rows.push r, index, index_iff_push t.index_iff h⟩

theorem add_of_contains {t : Roster key} {r : ρ} (h : t.contains (key r)) : t.add r = t := by
  rw [contains_eq_isSome, Option.isSome_iff_exists] at h
  obtain ⟨i, h⟩ := h
  unfold add
  split
  · rfl
  · next h' => rw [position?, h'] at h; cases h

theorem rows_add {t : Roster key} {r : ρ} (h : t.contains (key r) = false) :
    (t.add r).rows = t.rows.push r := by
  rw [contains_eq_isSome, Option.isSome_eq_false_iff, Option.isNone_iff_eq_none] at h
  unfold add
  split
  · next h' => rw [position?, h'] at h; cases h
  · rfl

theorem toList_add {t : Roster key} {r : ρ} (h : t.contains (key r) = false) :
    (t.add r).toList = t.toList ++ [r] := by
  simp [rows_add h, toList]

/-- Rows keep their positions. -/
theorem get?_add {t : Roster key} {r x : ρ} {i : Nat} (h : t.get? i = some x) :
    (t.add r).get? i = some x := by
  cases hr : t.contains (key r) with
  | true => rwa [add_of_contains hr]
  | false =>
    obtain ⟨hi, rfl⟩ := Array.getElem?_eq_some_iff.1 h
    rw [get?, rows_add hr, Array.getElem?_push_lt hi]

theorem nodup_toList (t : Roster key) : (t.toList.map key).Nodup := by
  rw [List.nodup_iff_pairwise_ne, List.pairwise_iff_getElem]
  intro i j hi hj hij h
  simp only [List.length_map, toList, Array.length_toList] at hi hj
  simp only [List.getElem_map, toList, Array.getElem_toList] at h
  have h₁ := (t.index_iff (code (key t.rows[i])) i).2 ⟨_, Array.getElem?_eq_getElem hi, rfl⟩
  have h₂ := (t.index_iff (code (key t.rows[i])) j).2
    ⟨_, Array.getElem?_eq_getElem hj, congrArg code h.symm⟩
  rw [h₁] at h₂
  have := Option.some.inj h₂
  omega

end Roster

/-- Distinct items in the order of their arrival. -/
abbrev OrderedSet (α : Type) [Coded α] : Type := Roster (id : α → α)

theorem OrderedSet.mem_add {α : Type} [Coded α] {t : OrderedSet α} {a b : α} :
    b ∈ (t.add a).toList ↔ b = a ∨ b ∈ t.toList := by
  by_cases h : t.contains a
  · rw [Roster.add_of_contains h]
    have : a ∈ t.toList := by simpa using Roster.contains_iff.1 h
    exact ⟨.inr, fun hb => hb.elim (· ▸ this) id⟩
  · rw [Roster.toList_add (by simpa using h)]
    simp [or_comm]

end ProgramFlow
