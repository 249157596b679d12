import ProgramFlow.PointsTo.Pointers
import ProgramFlow.Proofs.Collection.Numbering
/-!
The names of pointers and their sets are kept apart but grow in step, so that each number that
names a pointer has a set, and the listing puts the two together.
-/
namespace ProgramFlow.PointsTo.PointerTable

/-- There are as many sets as pointers. -/
def InStep (t : PointerTable) : Prop := t.sets.size = t.names.size

variable {t : PointerTable} {x : Pointer} {id : PointerId} {objs : ObjSet}

theorem inStep_empty : empty.InStep := rfl

/-- A number that names a pointer is within the sets. -/
theorem InStep.lt_size (h : t.InStep) (hx : t.names.get? id = some x) :
    id.index < t.sets.size := by
  obtain ⟨hlt, -⟩ := Array.getElem?_eq_some_iff.1 hx
  exact Nat.lt_of_lt_of_eq hlt h.symm

/-- The sets are too few for a number exactly if its pointer is new. -/
theorem InStep.ensure (h : t.InStep) (x : Pointer) : (t.ensure x).2.InStep := by
  simp only [InStep, PointerTable.ensure]
  cases hx : t.names.find? x with
  | some id =>
    obtain ⟨y, hy, -⟩ := Numbering.find?_eq_some_iff.1 hx
    rw [Numbering.ensure_of_find? hx, if_neg (Nat.not_le.2 (h.lt_size hy))]
    exact h
  | none =>
    have hid : (t.names.ensure x).1.index = t.sets.size := by
      rw [Numbering.index_ensure hx, Numbering.length_keys, h]
    rw [if_pos (Nat.le_of_eq hid.symm), Array.size_push, h, ← Numbering.length_keys,
      ← Numbering.length_keys, Numbering.keys_ensure hx, List.length_append]
    rfl

theorem InStep.setObjects (h : t.InStep) (id : PointerId) (objs : ObjSet) :
    (t.setObjects id objs).InStep :=
  Array.size_setIfInBounds.trans h

/-- The set of a pointer is there. -/
theorem InStep.objects (h : t.InStep) (hx : t.names.get? id = some x) :
    t.objects id = .ok (t.objectsOf id) := by
  have hsets := Array.getElem?_eq_getElem (h.lt_size hx)
  rw [PointerTable.objects, fetch_eq_ok_iff, PointerTable.objectsOf, hsets]
  rfl

/-- Sets are found at the numbers of pointers, and only there. -/
theorem InStep.exists_objects_iff (h : t.InStep) :
    (∃ objs, t.objects id = .ok objs) ↔ ∃ x, t.name id = .ok x := by
  constructor
  · intro hobjs
    obtain ⟨objs, hobjs⟩ := hobjs
    obtain ⟨hlt, -⟩ := Array.getElem?_eq_some_iff.1 (fetch_eq_ok_iff.1 hobjs)
    rw [h] at hlt
    exact ⟨_, fetch_eq_ok_iff.2 (Array.getElem?_eq_getElem hlt)⟩
  · intro hx
    obtain ⟨x, hx⟩ := hx
    exact ⟨_, h.objects (Numbering.row_eq_ok_iff.1 hx)⟩

/-- The listing has each pointer with its number and the set at this number. -/
theorem InStep.toList_eq (h : t.InStep) :
    t.toList = t.names.toList.map fun p => (p.1, p.2, t.objectsOf p.1) := by
  have hlength : t.names.rows.length = t.sets.size := h.symm
  apply List.ext_getElem
  · simp [toList, rows, Numbering.toList, hlength]
  · intro i hi hi'
    have hsets : i < t.sets.size := by
      simpa [toList, rows, hlength] using hi
    simp [toList, rows, Numbering.toList, PointerTable.objectsOf, hsets]

/-- No pointer is listed twice. -/
theorem InStep.nodup_rows (h : t.InStep) : (t.rows.map Prod.fst).Nodup := by
  have hfst : t.rows.map Prod.fst = t.names.keys := by
    have hlength : t.names.rows.length ≤ t.sets.toList.length := Nat.le_of_eq h.symm
    rw [rows, List.map_fst_zip hlength]
    exact (List.map_id _).symm
  rw [hfst]
  exact t.names.nodup_keys

theorem map_snd_toList (t : PointerTable) : t.toList.map Prod.snd = t.rows := by
  rw [toList, List.map_map]
  exact List.zipIdx_map_fst ..

/-- The listed rows are the pointers that have numbers, each with its set. -/
theorem InStep.mem_rows (h : t.InStep) :
    (x, objs) ∈ t.rows ↔ ∃ id, t.names.get? id = some x ∧ t.objectsOf id = objs := by
  rw [← map_snd_toList, h.toList_eq, List.map_map, List.mem_map]
  constructor
  · intro hrow
    obtain ⟨⟨id, y⟩, hy, heq⟩ := hrow
    cases heq
    exact ⟨id, Numbering.mem_toList.1 hy, rfl⟩
  · intro hid
    obtain ⟨id, hx, rfl⟩ := hid
    exact ⟨(id, x), Numbering.mem_toList.2 hx, rfl⟩

end ProgramFlow.PointsTo.PointerTable
