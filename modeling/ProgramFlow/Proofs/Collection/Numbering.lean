import ProgramFlow.Collection.Numbering
import ProgramFlow.Proofs.Outcome
/-!
Numbers as names. Whatever a table is asked for, its answers pair keys and numbers one to one, in
the order in which the keys are first used, and a number that has been given names its key for good.
-/
namespace ProgramFlow

section

variable {α : Type} [BEq α] [LawfulBEq α] {l : List α} {a : α}

theorem eraseDups_concat_of_mem (h : a ∈ l) : (l ++ [a]).eraseDups = l.eraseDups := by
  have hnone : [a].removeAll l = [] := by simp [List.removeAll, h]
  rw [List.eraseDups_append, hnone]
  exact List.append_nil _

theorem eraseDups_concat_of_notMem (h : a ∉ l) :
    (l ++ [a]).eraseDups = l.eraseDups ++ [a] := by
  have hone : [a].removeAll l = [a] := by simp [List.removeAll, h]
  rw [List.eraseDups_append, hone]
  rfl

end

namespace Numbering

variable {k : Kind} {ρ κ : Type} [Coded κ] {key : ρ → κ} {t : Numbering k key} {r : ρ} {x y : κ}
  {a b : Id k}

theorem row_eq_ok_iff : t.row a = .ok r ↔ t.get? a = some r :=
  fetch_eq_ok_iff

theorem get?_empty (a : Id k) : (empty : Numbering k key).get? a = none := rfl

/-- The keys of the rows in order. -/
def keys (t : Numbering k key) : List κ := t.rows.map key

theorem getElem?_keys (i : Nat) : t.keys[i]? = (t.get? ⟨i⟩).map key := by
  simp [keys, rows, Roster.toList, get?, Roster.get?]

theorem find?_eq_some_iff_keys : t.find? x = some a ↔ t.keys[a.index]? = some x := by
  rw [find?_eq_some_iff, getElem?_keys, Option.map_eq_some_iff]

theorem length_keys : t.keys.length = t.size := by
  simp [keys, rows, Roster.toList, size, Roster.size]

theorem mem_toList : (a, r) ∈ t.toList ↔ t.get? a = some r := by
  have hrow : t.rows[a.index]? = t.get? a := Array.getElem?_toList
  rw [← hrow, toList, List.mem_map]
  constructor
  · intro h
    obtain ⟨⟨s, i⟩, hs, heq⟩ := h
    cases heq
    exact List.mem_zipIdx_iff_getElem?.1 hs
  · intro h
    exact ⟨(r, a.index), List.mem_zipIdx_iff_getElem?.2 h, rfl⟩

theorem nodup_keys (t : Numbering k key) : t.keys.Nodup :=
  t.roster.nodup_toList

/-- The keys with their numbers, in order. -/
theorem map_toList (t : Numbering k key) :
    t.toList.map (fun p => (key p.2, p.1)) = t.keys.zipIdx.map fun p => (p.1, ⟨p.2⟩) := by
  rw [toList, keys, List.zipIdx_map, List.map_map, List.map_map]
  rfl

theorem map_key_toList (t : Numbering k key) : t.toList.map (fun p => key p.2) = t.keys := by
  have hfst := congrArg (List.map Prod.fst) t.map_toList
  simpa [Function.comp_def] using hfst

theorem ensure_of_find? (h : t.find? (key r) = some a) : t.ensure r = (a, t) := by
  rw [ensure, h]

theorem keys_ensure (h : t.find? (key r) = none) : (t.ensure r).2.keys = t.keys ++ [key r] := by
  rw [ensure, h, keys, keys, rows, Roster.toList_add (find?_eq_none_iff.1 h), List.map_append]
  rfl

theorem index_ensure (h : t.find? (key r) = none) : (t.ensure r).1.index = t.keys.length := by
  rw [ensure, h, length_keys]

/-- A table that grows has found nothing. -/
theorem find?_eq_none_of_new {s : ρ} (hnew : t.get? a = none)
    (h : (t.ensure r).2.get? a = some s) : t.find? (key r) = none := by
  cases hr : t.find? (key r) with
  | none => rfl
  | some b =>
    rw [ensure_of_find? hr, hnew] at h
    cases h

variable [DecidableEq κ] {log : List (κ × Id k)}

/-- The answers in the log have numbered the keys of the table, in the order in which they were
first asked for. -/
structure Answered (t : Numbering k key) (log : List (κ × Id k)) : Prop where
  keys : (log.map Prod.fst).eraseDups = t.keys
  pairs : log.eraseDups = t.keys.zipIdx.map fun p => (p.1, ⟨p.2⟩)

namespace Answered

theorem empty : (empty : Numbering k key).Answered [] := ⟨rfl, rfl⟩

theorem mem_iff (h : t.Answered log) : (x, a) ∈ log ↔ t.find? x = some a := by
  rw [← List.mem_eraseDups, h.pairs, List.mem_map, find?_eq_some_iff_keys]
  constructor
  · rintro ⟨⟨y, i⟩, hi, heq⟩
    cases heq
    exact List.mem_zipIdx_iff_getElem?.1 hi
  · intro hx
    exact ⟨(x, a.index), List.mem_zipIdx_iff_getElem?.2 hx, rfl⟩

theorem ensure (h : t.Answered log) (r : ρ) :
    (t.ensure r).2.Answered (log ++ [(key r, (t.ensure r).1)]) := by
  cases hr : t.find? (key r) with
  | some a =>
    -- The answer repeats an earlier one, so that neither list of first uses grows.
    have hmem : (key r, a) ∈ log := h.mem_iff.2 hr
    have hkey : key r ∈ log.map Prod.fst := List.mem_map_of_mem hmem
    rw [ensure_of_find? hr]
    constructor
    · rw [List.map_append, List.map_singleton, eraseDups_concat_of_mem hkey, h.keys]
    · rw [eraseDups_concat_of_mem hmem, h.pairs]
  | none =>
    have hkey : key r ∉ log.map Prod.fst := by
      intro hmem
      obtain ⟨⟨_, a⟩, hmem, rfl⟩ := List.mem_map.1 hmem
      cases hr.symm.trans (h.mem_iff.1 hmem)
    have hnew : (key r, (t.ensure r).1) ∉ log := fun hmem => hkey (List.mem_map_of_mem hmem)
    have hid : (t.ensure r).1 = ⟨t.keys.length⟩ := Id.ext (index_ensure hr)
    constructor
    · rw [List.map_append, List.map_singleton, eraseDups_concat_of_notMem hkey, h.keys,
        keys_ensure hr]
    · rw [eraseDups_concat_of_notMem hnew, h.pairs, keys_ensure hr, List.zipIdx_append,
        List.map_append, hid, Nat.zero_add]
      rfl

end Answered

/-- The numbers in the log name the keys that they were given for. -/
structure Names (t : Numbering k key) (log : List (κ × Id k)) : Prop where
  /-- Equal keys have equal numbers, and different keys different ones. -/
  eq_iff : ∀ {x y a b}, (x, a) ∈ log → (y, b) ∈ log → (a = b ↔ x = y)
  /-- The keys are numbered from zero in the order of their first use. -/
  dense : log.eraseDups = (log.map Prod.fst).eraseDups.zipIdx.map fun p => (p.1, ⟨p.2⟩)
  size : t.size = (log.map Prod.fst).eraseDups.length
  row : ∀ {x a}, (∃ r, t.row a = .ok r ∧ key r = x) ↔ (x, a) ∈ log
  find? : ∀ {x a}, t.find? x = some a ↔ (x, a) ∈ log
  toList : t.toList.map (fun p => (key p.2, p.1)) = log.eraseDups
  /-- Nothing is lost in 32 bits as long as they have room for the rows. -/
  ofIndex : t.size ≤ UInt32.size → ∀ {x a}, (x, a) ∈ log → Id.ofIndex a.index = a

theorem Answered.names (h : t.Answered log) : t.Names log where
  eq_iff {x y a b} hx hy := by
    rw [h.mem_iff] at hx hy
    constructor
    · rintro rfl
      rw [find?_eq_some_iff_keys] at hx hy
      exact Option.some.inj (hx.symm.trans hy)
    · rintro rfl
      exact Option.some.inj (hx.symm.trans hy)
  dense := by rw [h.keys, h.pairs]
  size := by rw [h.keys, length_keys]
  row := by simp only [h.mem_iff, find?_eq_some_iff, row_eq_ok_iff, implies_true]
  find? := h.mem_iff.symm
  toList := by rw [map_toList, h.pairs]
  ofIndex hsize x a hx := by
    have hkey := find?_eq_some_iff_keys.1 (h.mem_iff.1 hx)
    obtain ⟨hlt, -⟩ := List.getElem?_eq_some_iff.1 hkey
    rw [length_keys] at hlt
    exact Id.ext (Nat.mod_eq_of_lt (Nat.lt_of_lt_of_le hlt hsize))

/-- Rows are found at the numbers that were given. -/
theorem Names.exists_row_iff (h : t.Names log) :
    (∃ r, t.row a = .ok r) ↔ ∃ x, (x, a) ∈ log := by
  simp only [← h.row]
  constructor
  · intro hr
    obtain ⟨r, hr⟩ := hr
    exact ⟨key r, r, hr, rfl⟩
  · intro hx
    obtain ⟨x, r, hr, -⟩ := hx
    exact ⟨r, hr⟩

/-! ## Rows that stay as they came -/

/-- Asks the table for a row and notes the answer. -/
def request (s : List (ρ × Id k) × Numbering k key) (r : ρ) : List (ρ × Id k) × Numbering k key :=
  let (id, t) := s.2.ensure r
  (s.1 ++ [(r, id)], t)

/-- Asks an empty table for one row after the other. -/
def requestAll (rs : List ρ) : List (ρ × Id k) × Numbering k key := rs.foldl request ([], empty)

/-- The numbers in the log name the keys, and the row of a key is the first that came with it. -/
structure KeepsFirst (t : Numbering k key) (log : List (ρ × Id k)) : Prop where
  names : t.Names (log.map fun p => (key p.1, p.2))
  row : ∀ {r a}, t.row a = .ok r ↔ log.find? (fun p => key p.1 = key r) = some (r, a)

/-- The log has numbered the keys of the table, and each row is the first in it with its key. -/
structure Received (t : Numbering k key) (log : List (ρ × Id k)) : Prop where
  answered : t.Answered (log.map fun p => (key p.1, p.2))
  first : ∀ {r a}, t.get? a = some r → log.find? (fun p => key p.1 = key r) = some (r, a)

namespace Received

variable {log : List (ρ × Id k)}

theorem empty : (empty : Numbering k key).Received [] where
  answered := .empty
  first h := by cases (get?_empty _).symm.trans h

theorem ensure (h : t.Received log) (r : ρ) :
    (t.ensure r).2.Received (log ++ [(r, (t.ensure r).1)]) where
  answered := by
    rw [List.map_append, List.map_singleton]
    exact h.answered.ensure r
  first {r' a} ha := by
    rw [List.find?_append]
    rcases of_get?_ensure ha with hold | ⟨hnew, rfl⟩
    · rw [h.first hold]
      rfl
    · -- A row that is new was asked for just now, and nothing in the log has its key.
      have hfind : t.find? (key r') = none := find?_eq_none_of_new hnew ha
      have hnone : log.find? (fun p => key p.1 = key r') = none := by
        rw [List.find?_eq_none]
        intro p hp hkey
        have hmem := h.answered.mem_iff.1 (List.mem_map_of_mem hp)
        rw [of_decide_eq_true hkey, hfind] at hmem
        cases hmem
      obtain ⟨r'', hr'', hkey⟩ := get?_ensure_self t r'
      rw [hnone, get?_injective hr'' ha hkey]
      simp

theorem foldl_request (h : t.Received log) (rs : List ρ) :
    (rs.foldl request (log, t)).2.Received (rs.foldl request (log, t)).1 := by
  induction rs generalizing t log with
  | nil => exact h
  | cons r rs ih => exact ih (h.ensure r)

theorem keepsFirst (h : t.Received log) : t.KeepsFirst log where
  names := h.answered.names
  row {r a} := by
    rw [row_eq_ok_iff]
    constructor
    · exact h.first
    · intro hfind
      have hmem : (key r, a) ∈ log.map fun p => (key p.1, p.2) :=
        List.mem_map_of_mem (List.mem_of_find?_eq_some hfind)
      obtain ⟨r', hr', hkey⟩ := find?_eq_some_iff.1 (h.answered.mem_iff.1 hmem)
      have hfirst := h.first hr'
      rw [hkey, hfind] at hfirst
      cases hfirst
      exact hr'

end Received

theorem keepsFirst_requestAll (rs : List ρ) :
    (requestAll rs : _ × Numbering k key).2.KeepsFirst (requestAll rs : _ × Numbering k key).1 :=
  (Received.empty.foldl_request rs).keepsFirst

end Numbering

end ProgramFlow
