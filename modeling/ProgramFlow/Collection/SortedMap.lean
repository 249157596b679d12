/-!
Finite maps as lists of entries with strictly increasing keys. Each operation is described by
`find?`, and two maps that answer `find?` alike are equal.
-/
set_option linter.unusedSectionVars false

namespace ProgramFlow

/-- A finite map, kept as a list of entries with strictly increasing keys. -/
structure SortedMap (κ α : Type) [Ord κ] where
  entries : List (κ × α)
  increasing : entries.Pairwise fun a b => compare a.1 b.1 = .lt
  deriving DecidableEq

namespace SortedMap

variable {κ α β : Type} [Ord κ]

def lookup (k : κ) : List (κ × α) → Option α
  | [] => none
  | (j, x) :: l => if compare k j = .eq then some x else lookup k l

def insertInto (k : κ) (x : α) : List (κ × α) → List (κ × α)
  | [] => [(k, x)]
  | (j, y) :: l =>
    match compare k j with
    | .lt => (k, x) :: (j, y) :: l
    | .eq => (k, x) :: l
    | .gt => (j, y) :: insertInto k x l

def empty : SortedMap κ α := ⟨[], .nil⟩

instance : EmptyCollection (SortedMap κ α) := ⟨empty⟩

instance : Inhabited (SortedMap κ α) := ⟨∅⟩

def find? (m : SortedMap κ α) (k : κ) : Option α := lookup k m.entries

def contains (m : SortedMap κ α) (k : κ) : Bool := (m.find? k).isSome

def keys (m : SortedMap κ α) : List κ := m.entries.map Prod.fst

def size (m : SortedMap κ α) : Nat := m.entries.length

def isEmpty (m : SortedMap κ α) : Bool := m.entries.isEmpty

/-- Every entry passes the test. -/
def all (p : κ → α → Bool) (m : SortedMap κ α) : Bool := m.entries.all fun (k, x) => p k x

def erase (m : SortedMap κ α) (k : κ) : SortedMap κ α :=
  ⟨m.entries.filter fun e => compare k e.1 != .eq, m.increasing.filter _⟩

@[simp] theorem find?_empty (k : κ) : (∅ : SortedMap κ α).find? k = none := rfl

variable [Std.TransOrd κ] [Std.LawfulEqOrd κ]

theorem fst_mem_insertInto {k j : κ} {x y : α} {l : List (κ × α)}
    (h : (j, y) ∈ insertInto k x l) : j = k ∨ (j, y) ∈ l := by
  induction l with
  | nil => simp_all [insertInto]
  | cons e l ih =>
    obtain ⟨i, z⟩ := e
    simp only [insertInto] at h
    split at h <;> grind

theorem increasing_insertInto {k : κ} {x : α} {l : List (κ × α)}
    (h : l.Pairwise fun a b => compare a.1 b.1 = .lt) :
    (insertInto k x l).Pairwise fun a b => compare a.1 b.1 = .lt := by
  induction l with
  | nil => simp [insertInto]
  | cons e l ih =>
    obtain ⟨j, y⟩ := e
    have hj := List.pairwise_cons.1 h
    simp only [insertInto]
    split
    · next hlt =>
      refine List.pairwise_cons.2 ⟨fun e he => ?_, h⟩
      rcases List.mem_cons.1 he with rfl | he
      · exact hlt
      · exact Std.TransCmp.lt_trans hlt (hj.1 e he)
    · next heq =>
      have hkj := Std.LawfulEqOrd.eq_of_compare heq
      subst hkj
      exact List.pairwise_cons.2 hj
    · next hgt =>
      refine List.pairwise_cons.2 ⟨fun e he => ?_, ih hj.2⟩
      obtain ⟨i, z⟩ := e
      rcases fst_mem_insertInto he with rfl | he
      · exact Std.OrientedCmp.lt_of_gt hgt
      · exact hj.1 _ he

def insert (m : SortedMap κ α) (k : κ) (x : α) : SortedMap κ α :=
  ⟨insertInto k x m.entries, increasing_insertInto m.increasing⟩

/-- Changes the value of a key, which is `init` if the key is new. -/
def update (m : SortedMap κ α) (k : κ) (init : α) (f : α → α) : SortedMap κ α :=
  m.insert k (f ((m.find? k).getD init))

/-- Later entries win. -/
def ofList (l : List (κ × α)) : SortedMap κ α := l.foldl (fun m e => m.insert e.1 e.2) ∅

theorem compare_eq_iff {j k : κ} : compare j k = .eq ↔ j = k :=
  Std.LawfulEqOrd.compare_eq_iff_eq

theorem lookup_insertInto [DecidableEq κ] (k j : κ) (x : α) (l : List (κ × α)) :
    lookup j (insertInto k x l) = if j = k then some x else lookup j l := by
  induction l with
  | nil => simp only [insertInto, lookup, compare_eq_iff]
  | cons e l ih =>
    obtain ⟨i, z⟩ := e
    simp only [insertInto]
    split
    · simp only [lookup, compare_eq_iff]
    · next heq =>
      have hki := compare_eq_iff.1 heq
      subst hki
      simp only [lookup, compare_eq_iff]
      split <;> rfl
    · next hgt =>
      have hki : k ≠ i := fun h => by simp [h, Std.ReflCmp.compare_self] at hgt
      simp only [lookup, compare_eq_iff, ih]
      grind

theorem lookup_eq_none {k : κ} {l : List (κ × α)} (h : ∀ e ∈ l, e.1 ≠ k) : lookup k l = none := by
  induction l with
  | nil => rfl
  | cons e l ih =>
    simp only [lookup]
    rw [if_neg fun hk => h e (.head _) (compare_eq_iff.1 hk).symm]
    exact ih fun e he => h e (.tail _ he)

theorem mem_of_lookup {k : κ} {x : α} {l : List (κ × α)} (h : lookup k l = some x) :
    (k, x) ∈ l := by
  induction l with
  | nil => cases h
  | cons e l ih =>
    simp only [lookup] at h
    split at h
    · next hk =>
      cases h
      rw [compare_eq_iff.1 hk]
      exact .head _
    · exact .tail _ (ih h)

theorem lookup_eq_some_iff {k : κ} {x : α} {l : List (κ × α)}
    (hl : l.Pairwise fun a b => compare a.1 b.1 = .lt) : lookup k l = some x ↔ (k, x) ∈ l := by
  refine ⟨mem_of_lookup, fun h => ?_⟩
  induction l with
  | nil => cases h
  | cons e l ih =>
    have he := List.pairwise_cons.1 hl
    simp only [lookup]
    rcases List.mem_cons.1 h with rfl | hk
    · rw [if_pos Std.ReflCmp.compare_self]
    · have hne : k ≠ e.1 := fun hke => by
        have := he.1 _ hk
        simp [hke, Std.ReflCmp.compare_self] at this
      rw [if_neg fun hke => hne (compare_eq_iff.1 hke)]
      exact ih he.2 hk

theorem find?_eq_some_iff {m : SortedMap κ α} {k : κ} {x : α} :
    m.find? k = some x ↔ (k, x) ∈ m.entries :=
  lookup_eq_some_iff m.increasing

@[simp] theorem find?_insert [DecidableEq κ] (m : SortedMap κ α) (k j : κ) (x : α) :
    (m.insert k x).find? j = if j = k then some x else m.find? j :=
  lookup_insertInto k j x m.entries

theorem getD_find?_update [DecidableEq κ] (m : SortedMap κ α) (k j : κ) (init : α) (f : α → α) :
    ((m.update k init f).find? j).getD init =
      if j = k then f ((m.find? k).getD init) else (m.find? j).getD init := by
  rw [update, find?_insert]
  split <;> rfl

@[simp] theorem find?_erase [DecidableEq κ] (m : SortedMap κ α) (k j : κ) :
    (m.erase k).find? j = if j = k then none else m.find? j := by
  apply Option.ext
  intro x
  split
  · next h =>
    subst h
    simp [find?_eq_some_iff, erase, Std.ReflCmp.compare_self]
  · next h =>
    simp only [find?_eq_some_iff, erase, List.mem_filter, bne_iff_ne, ne_eq, compare_eq_iff]
    exact ⟨fun hx => hx.1, fun hx => ⟨hx, fun hk => h hk.symm⟩⟩

theorem ext {m n : SortedMap κ α} (h : ∀ k, m.find? k = n.find? k) : m = n := by
  obtain ⟨l, hl⟩ := m
  obtain ⟨r, hr⟩ := n
  suffices l = r by subst this; rfl
  have hm : ∀ e, e ∈ l ↔ e ∈ r := fun e => by
    obtain ⟨k, x⟩ := e
    rw [← lookup_eq_some_iff hl, ← lookup_eq_some_iff hr]
    exact iff_of_eq (congrArg (· = some x) (h k))
  clear h
  induction l generalizing r with
  | nil =>
    cases r with
    | nil => rfl
    | cons b r => exact absurd ((hm b).2 (.head _)) List.not_mem_nil
  | cons a l ih =>
    cases r with
    | nil => exact absurd ((hm a).1 (.head _)) List.not_mem_nil
    | cons b r =>
      have ha := List.pairwise_cons.1 hl
      have hb := List.pairwise_cons.1 hr
      have irrefl : ∀ k : κ, compare k k ≠ .lt := fun k => by simp [Std.ReflCmp.compare_self]
      have hab : a = b := by
        rcases List.mem_cons.1 ((hm a).1 (.head _)) with hab | hab
        · exact hab
        · rcases List.mem_cons.1 ((hm b).2 (.head _)) with hba | hba
          · exact hba.symm
          · exact absurd (Std.TransCmp.lt_trans (ha.1 b hba) (hb.1 a hab)) (irrefl _)
      subst hab
      congr 1
      refine ih ha.2 r hb.2 fun x => ⟨fun hx => ?_, fun hx => ?_⟩
      · rcases List.mem_cons.1 ((hm x).1 (.tail _ hx)) with rfl | hx'
        · exact absurd (ha.1 _ hx) (irrefl _)
        · exact hx'
      · rcases List.mem_cons.1 ((hm x).2 (.tail _ hx)) with rfl | hx'
        · exact absurd (hb.1 _ hx) (irrefl _)
        · exact hx'

end SortedMap

end ProgramFlow
