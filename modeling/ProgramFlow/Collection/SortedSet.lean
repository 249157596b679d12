/-!
Finite sets as strictly increasing lists. Each operation is described by membership, and two sets
with the same members are equal.
-/
set_option linter.unusedSectionVars false

namespace ProgramFlow

/-- A new value together with whether it differs from the old one. -/
structure Change (α : Type) where
  changed : Bool
  value : α

/-- A finite set, kept as a strictly increasing list. -/
structure SortedSet (α : Type) [Ord α] where
  toList : List α
  increasing : toList.Pairwise fun a b => compare a b = .lt
  deriving DecidableEq

namespace SortedSet

variable {α : Type} [Ord α]

@[specialize] def insertInto (a : α) : List α → List α
  | [] => [a]
  | b :: l =>
    match compare a b with
    | .lt => a :: b :: l
    | .eq => b :: l
    | .gt => b :: insertInto a l

section Laws

variable [Std.TransOrd α] [Std.LawfulEqOrd α]

theorem mem_insertInto {a x : α} {l : List α} : x ∈ insertInto a l ↔ x = a ∨ x ∈ l := by
  induction l with
  | nil => simp [insertInto]
  | cons b l ih =>
    simp only [insertInto]
    split
    · simp
    · next h =>
      have := Std.LawfulEqOrd.eq_of_compare h
      simp [this]
    · simp only [List.mem_cons, ih]
      grind

theorem increasing_insertInto {a : α} {l : List α}
    (h : l.Pairwise fun a b => compare a b = .lt) :
    (insertInto a l).Pairwise fun a b => compare a b = .lt := by
  induction l with
  | nil => simp [insertInto]
  | cons b l ih =>
    have hb := List.pairwise_cons.1 h
    simp only [insertInto]
    split
    · next hlt =>
      refine List.pairwise_cons.2 ⟨fun x hx => ?_, h⟩
      rcases List.mem_cons.1 hx with rfl | hx
      · exact hlt
      · exact Std.TransCmp.lt_trans hlt (hb.1 x hx)
    · exact h
    · next hgt =>
      refine List.pairwise_cons.2 ⟨fun x hx => ?_, ih hb.2⟩
      rcases mem_insertInto.1 hx with rfl | hx
      · exact Std.OrientedCmp.lt_of_gt hgt
      · exact hb.1 x hx

/-- What is below the first item of an increasing list is no item of it. -/
theorem not_mem_of_lt {a b : α} {l : List α} (h : compare a b = .lt)
    (hl : (b :: l).Pairwise fun a b => compare a b = .lt) : a ∉ b :: l := by
  have hirr : compare a a ≠ .lt := by simp [Std.ReflCmp.compare_self]
  intro hmem
  rcases List.mem_cons.1 hmem with rfl | hmem
  · exact hirr h
  · exact hirr (Std.TransCmp.lt_trans h ((List.pairwise_cons.1 hl).1 a hmem))

end Laws

def empty : SortedSet α := ⟨[], .nil⟩

instance : EmptyCollection (SortedSet α) := ⟨empty⟩

instance : Inhabited (SortedSet α) := ⟨∅⟩

instance : Membership α (SortedSet α) := ⟨fun s a => a ∈ s.toList⟩

theorem mem_toList {s : SortedSet α} {a : α} : a ∈ s.toList ↔ a ∈ s := .rfl

@[simp] theorem not_mem_empty {a : α} : a ∉ (∅ : SortedSet α) := by
  intro h
  cases h

instance [DecidableEq α] (a : α) (s : SortedSet α) : Decidable (a ∈ s) :=
  inferInstanceAs (Decidable (a ∈ s.toList))

@[inline] def contains [DecidableEq α] (s : SortedSet α) (a : α) : Bool := decide (a ∈ s)

def size (s : SortedSet α) : Nat := s.toList.length

def isEmpty (s : SortedSet α) : Bool := s.toList.isEmpty

theorem isEmpty_iff {s : SortedSet α} : s.isEmpty = true ↔ ∀ a, a ∉ s := by
  rw [isEmpty, List.isEmpty_iff, List.eq_nil_iff_forall_not_mem]
  exact .rfl

theorem exists_mem {s : SortedSet α} (h : ¬ s.isEmpty = true) : ∃ a, a ∈ s := by
  rw [isEmpty, List.isEmpty_iff] at h
  exact List.exists_mem_of_ne_nil _ h

/-- The members that satisfy a test. -/
def filter (p : α → Bool) (s : SortedSet α) : SortedSet α :=
  ⟨s.toList.filter p, s.increasing.filter p⟩

@[simp] theorem mem_filter {p : α → Bool} {s : SortedSet α} {a : α} :
    a ∈ s.filter p ↔ a ∈ s ∧ p a = true :=
  List.mem_filter

variable [DecidableEq α]

def erase (s : SortedSet α) (a : α) : SortedSet α := s.filter (· ≠ a)

@[simp] theorem mem_erase {s : SortedSet α} {a x : α} : x ∈ s.erase a ↔ x ∈ s ∧ x ≠ a := by
  simp [erase]

variable [Std.TransOrd α] [Std.LawfulEqOrd α]

theorem ext {s t : SortedSet α} (h : ∀ a, a ∈ s ↔ a ∈ t) : s = t := by
  obtain ⟨l, hl⟩ := s
  obtain ⟨r, hr⟩ := t
  suffices l = r by subst this; rfl
  replace h : ∀ a, a ∈ l ↔ a ∈ r := h
  induction l generalizing r with
  | nil =>
    cases r with
    | nil => rfl
    | cons b r => exact absurd ((h b).2 (.head _)) List.not_mem_nil
  | cons a l ih =>
    cases r with
    | nil => exact absurd ((h a).1 (.head _)) List.not_mem_nil
    | cons b r =>
      have ha := List.pairwise_cons.1 hl
      have hb := List.pairwise_cons.1 hr
      have hab : a = b := by
        rcases List.mem_cons.1 ((h a).1 (.head _)) with hab | hab
        · exact hab
        · rcases List.mem_cons.1 ((h b).2 (.head _)) with hba | hba
          · exact hba.symm
          · have h₁ := ha.1 b hba
            have h₂ := Std.OrientedCmp.gt_of_lt (hb.1 a hab)
            rw [h₁] at h₂
            cases h₂
      subst hab
      congr 1
      refine ih ha.2 r hb.2 fun x => ⟨fun hx => ?_, fun hx => ?_⟩
      · rcases List.mem_cons.1 ((h x).1 (.tail _ hx)) with rfl | hx'
        · have := ha.1 _ hx
          simp [Std.ReflCmp.compare_self] at this
        · exact hx'
      · rcases List.mem_cons.1 ((h x).2 (.tail _ hx)) with rfl | hx'
        · have := hb.1 _ hx
          simp [Std.ReflCmp.compare_self] at this
        · exact hx'

theorem nodup (s : SortedSet α) : s.toList.Nodup := by
  refine s.increasing.imp fun {a b} h hab => ?_
  subst hab
  simp [Std.ReflCmp.compare_self] at h

@[inline] def insert (s : SortedSet α) (a : α) : SortedSet α :=
  ⟨insertInto a s.toList, increasing_insertInto s.increasing⟩

@[simp] theorem mem_insert {s : SortedSet α} {a x : α} : x ∈ s.insert a ↔ x = a ∨ x ∈ s :=
  mem_insertInto

@[inline] def singleton (a : α) : SortedSet α := insert ∅ a

@[inline] def ofList (l : List α) : SortedSet α := l.foldl insert ∅

/-- Folding steps that each add some items. -/
theorem mem_foldl {β : Type} {f : SortedSet α → β → SortedSet α} {x : α} {P : β → Prop}
    (h : ∀ s b, x ∈ f s b ↔ x ∈ s ∨ P b) {l : List β} {s : SortedSet α} :
    x ∈ l.foldl f s ↔ x ∈ s ∨ ∃ b ∈ l, P b := by
  induction l generalizing s with
  | nil => simp
  | cons b l ih => simp only [List.foldl_cons, ih, h, or_assoc, List.mem_cons, exists_eq_or_imp]

theorem mem_foldl_insert {l : List α} {s : SortedSet α} {x : α} :
    x ∈ l.foldl insert s ↔ x ∈ s ∨ x ∈ l :=
  (mem_foldl (P := (x = ·)) fun _ _ => mem_insert.trans or_comm).trans (by simp)

@[simp] theorem mem_ofList {l : List α} {x : α} : x ∈ ofList l ↔ x ∈ l := by
  simp [ofList, mem_foldl_insert]

/-- Merges the item `a` and what `rest` merges after it into a list: the list goes first as long as its
items are smaller. -/
@[specialize] def mergeFrom (a : α) (l : List α) (rest : List α → List α) : List α → List α
  | [] => a :: l
  | b :: r =>
    match compare a b with
    | .lt => a :: rest (b :: r)
    | .eq => a :: rest r
    | .gt => b :: mergeFrom a l rest r

/-- The items of two increasing lists, in one pass over both. -/
@[specialize] def mergeLists : List α → List α → List α
  | [], r => r
  | a :: l, r => mergeFrom a l (mergeLists l) r

theorem mem_mergeFrom {a x : α} {l r : List α} {rest : List α → List α}
    (h : ∀ r, x ∈ rest r ↔ x ∈ l ∨ x ∈ r) :
    x ∈ mergeFrom a l rest r ↔ x ∈ a :: l ∨ x ∈ r := by
  induction r with
  | nil => simp [mergeFrom]
  | cons b r ih =>
    simp only [mergeFrom]
    split
    · simp only [List.mem_cons, h, or_assoc]
    · next heq =>
      have hab : a = b := Std.LawfulEqOrd.eq_of_compare heq
      simp only [List.mem_cons, h, hab]
      grind
    · simp only [List.mem_cons, ih]
      grind

theorem mem_mergeLists {x : α} {l r : List α} : x ∈ mergeLists l r ↔ x ∈ l ∨ x ∈ r := by
  induction l generalizing r with
  | nil => simp [mergeLists]
  | cons a l ih => exact mem_mergeFrom fun _ => ih

theorem increasing_mergeFrom {a : α} {l r : List α} {rest : List α → List α}
    (hmem : ∀ r x, x ∈ rest r ↔ x ∈ l ∨ x ∈ r)
    (hrest : ∀ r, r.Pairwise (fun a b => compare a b = .lt) →
      (rest r).Pairwise fun a b => compare a b = .lt)
    (hl : (a :: l).Pairwise fun a b => compare a b = .lt)
    (hr : r.Pairwise fun a b => compare a b = .lt) :
    (mergeFrom a l rest r).Pairwise fun a b => compare a b = .lt := by
  induction r with
  | nil => exact hl
  | cons b r ih =>
    have ha := (List.pairwise_cons.1 hl).1
    obtain ⟨hb, hr'⟩ := List.pairwise_cons.1 hr
    simp only [mergeFrom]
    split
    · next hlt =>
      refine List.pairwise_cons.2 ⟨fun x hx => ?_, hrest _ hr⟩
      rcases (hmem _ x).1 hx with hx | hx
      · exact ha x hx
      · rcases List.mem_cons.1 hx with rfl | hx
        · exact hlt
        · exact Std.TransCmp.lt_trans hlt (hb x hx)
    · next heq =>
      have hab : a = b := Std.LawfulEqOrd.eq_of_compare heq
      refine List.pairwise_cons.2 ⟨fun x hx => ?_, hrest _ hr'⟩
      rcases (hmem _ x).1 hx with hx | hx
      · exact ha x hx
      · exact hab ▸ hb x hx
    · next hgt =>
      have hba : compare b a = .lt := Std.OrientedCmp.lt_of_gt hgt
      refine List.pairwise_cons.2 ⟨fun x hx => ?_, ih hr'⟩
      rcases (mem_mergeFrom (hmem · x)).1 hx with hx | hx
      · rcases List.mem_cons.1 hx with rfl | hx
        · exact hba
        · exact Std.TransCmp.lt_trans hba (ha x hx)
      · exact hb x hx

theorem increasing_mergeLists {l r : List α} (hl : l.Pairwise fun a b => compare a b = .lt)
    (hr : r.Pairwise fun a b => compare a b = .lt) :
    (mergeLists l r).Pairwise fun a b => compare a b = .lt := by
  induction l generalizing r with
  | nil => exact hr
  | cons a l ih =>
    exact increasing_mergeFrom (fun _ _ => mem_mergeLists)
      (fun _ => ih (List.pairwise_cons.1 hl).2) hl hr

/-- The first set with the members of the second, and whether it has grown by them. -/
def addAll (s t : SortedSet α) : Change (SortedSet α) :=
  if t.isEmpty then ⟨false, s⟩
  else if s.isEmpty then ⟨true, t⟩
  else
    let merged := mergeLists s.toList t.toList
    ⟨decide (merged.length ≠ s.size), ⟨merged, increasing_mergeLists s.increasing t.increasing⟩⟩

def union (s t : SortedSet α) : SortedSet α := (s.addAll t).value

@[simp] theorem mem_union {s t : SortedSet α} {x : α} : x ∈ s.union t ↔ x ∈ s ∨ x ∈ t := by
  unfold union addAll
  split
  · next ht => simp [isEmpty_iff.1 ht]
  · split
    · next hs => simp [isEmpty_iff.1 hs]
    · exact mem_mergeLists

/-- The flag is whether the size changes. -/
theorem addAll_changed {s t : SortedSet α} :
    (s.addAll t).changed = true ↔ (s.union t).size ≠ s.size := by
  unfold union addAll
  split
  · simp
  · next ht =>
    obtain ⟨b, hb⟩ := exists_mem ht
    split
    · next hs =>
      have hs : s.toList = [] := List.isEmpty_iff.1 hs
      simp [size, hs, List.ne_nil_of_mem hb]
    · exact decide_eq_true_iff

/-- The items of an increasing list that another one lacks, in one pass over both. -/
@[specialize] def removeFrom : List α → List α → List α
  | [], _ => []
  | a :: l, r =>
    match r.dropWhile (compare · a == .lt) with
    | [] => a :: l
    | b :: r => if a = b then removeFrom l r else a :: removeFrom l (b :: r)

theorem removeFrom_eq_filter {l r : List α} (hl : l.Pairwise fun a b => compare a b = .lt)
    (hr : r.Pairwise fun a b => compare a b = .lt) :
    removeFrom l r = l.filter fun a => !decide (a ∈ r) := by
  induction l generalizing r with
  | nil => rfl
  | cons a l ih =>
    obtain ⟨ha, hl⟩ := List.pairwise_cons.1 hl
    have hirr : ∀ x y : α, compare x y = .lt → x ≠ y := by
      rintro x y h rfl
      simp [Std.ReflCmp.compare_self] at h
    have hsmall : ∀ x ∈ a :: l, (x ∈ r ↔ x ∈ r.dropWhile (compare · a == .lt)) := by
      intro x hx
      refine ⟨fun h => ?_, fun h => (List.dropWhile_sublist _).subset h⟩
      rw [← List.takeWhile_append_dropWhile (p := (compare · a == .lt)) (l := r)] at h
      refine (List.mem_append.1 h).resolve_left fun h => ?_
      have hxa : compare x a = .lt := by
        simpa using List.all_eq_true.1 List.all_takeWhile x h
      rcases List.mem_cons.1 hx with rfl | hx
      · exact hirr _ _ hxa rfl
      · exact hirr _ _ (Std.TransCmp.lt_trans hxa (ha x hx)) rfl
    have hfilter : (a :: l).filter (fun x => !decide (x ∈ r)) =
        (a :: l).filter fun x => !decide (x ∈ r.dropWhile (compare · a == .lt)) :=
      List.filter_congr fun x hx => by simp [hsmall x hx]
    rw [hfilter, removeFrom]
    have hdrop := hr.sublist (List.dropWhile_sublist (compare · a == .lt))
    have hhead := List.head?_dropWhile_not (compare · a == .lt) r
    generalize r.dropWhile (compare · a == .lt) = rest at hdrop hhead ⊢
    cases rest with
    | nil => exact (List.filter_eq_self.2 (by simp)).symm
    | cons b rest =>
      have hrest := (List.pairwise_cons.1 hdrop).2
      simp only [List.head?_cons] at hhead ⊢
      split
      · next hab =>
        subst hab
        rw [ih hl hrest, List.filter_cons_of_neg (by simp)]
        refine List.filter_congr fun x hx => ?_
        have := hirr _ _ (ha x hx)
        simp [Ne.symm this]
      · next hab =>
        have hlt : compare a b = .lt := by
          cases h : compare a b with
          | lt => rfl
          | eq => exact absurd (Std.LawfulEqOrd.eq_of_compare h) hab
          | gt => simp [Std.OrientedCmp.lt_of_gt h] at hhead
        have hnot : a ∉ b :: rest := not_mem_of_lt hlt hdrop
        rw [ih hl hdrop, List.filter_cons_of_pos (by simpa using hnot)]

/-- The members of `s` that `t` lacks. -/
@[inline] def difference (s t : SortedSet α) : SortedSet α where
  toList := removeFrom s.toList t.toList
  increasing := by
    rw [removeFrom_eq_filter s.increasing t.increasing]
    exact s.increasing.filter _

@[simp] theorem mem_difference {s t : SortedSet α} {a : α} :
    a ∈ s.difference t ↔ a ∈ s ∧ a ∉ t := by
  show a ∈ removeFrom s.toList t.toList ↔ _
  rw [removeFrom_eq_filter s.increasing t.increasing]
  simp [mem_toList]

/-- The set with one more member, and whether it grew. -/
def add (s : SortedSet α) (a : α) : Change (SortedSet α) := ⟨!s.contains a, s.insert a⟩

/-- The set without one member, and whether it shrank. -/
def remove (s : SortedSet α) (a : α) : Change (SortedSet α) := ⟨s.contains a, s.erase a⟩

/-- Compares the item `a`, and then those that `rest` compares, with the items of a list: those of the
list are passed over as long as they are smaller. -/
@[specialize] def meetsFrom (a : α) (rest : List α → Bool) : List α → Bool
  | [] => false
  | b :: r =>
    match compare a b with
    | .lt => rest (b :: r)
    | .eq => true
    | .gt => meetsFrom a rest r

/-- Whether two increasing lists have a common item, in one pass over both. -/
@[specialize] def meets : List α → List α → Bool
  | [], _ => false
  | a :: l, r => meetsFrom a (meets l) r

theorem meetsFrom_iff {a : α} {l r : List α} {rest : List α → Bool}
    (hl : (a :: l).Pairwise fun a b => compare a b = .lt)
    (hrest : ∀ r, r.Pairwise (fun a b => compare a b = .lt) → (rest r = true ↔ ∃ x ∈ l, x ∈ r))
    (hr : r.Pairwise fun a b => compare a b = .lt) :
    meetsFrom a rest r = true ↔ ∃ x ∈ a :: l, x ∈ r := by
  induction r with
  | nil => simp [meetsFrom]
  | cons b r ih =>
    simp only [meetsFrom]
    split
    · next hlt =>
      have hnot : a ∉ b :: r := not_mem_of_lt hlt hr
      rw [hrest _ hr]
      grind
    · next heq =>
      have hab : a = b := Std.LawfulEqOrd.eq_of_compare heq
      simp [hab]
    · next hgt =>
      have hnot : b ∉ a :: l := not_mem_of_lt (Std.OrientedCmp.lt_of_gt hgt) hl
      rw [ih (List.pairwise_cons.1 hr).2]
      grind

theorem meets_iff {l r : List α} (hl : l.Pairwise fun a b => compare a b = .lt)
    (hr : r.Pairwise fun a b => compare a b = .lt) :
    meets l r = true ↔ ∃ x ∈ l, x ∈ r := by
  induction l generalizing r with
  | nil => simp [meets]
  | cons a l ih =>
    exact meetsFrom_iff hl (fun _ => ih (List.pairwise_cons.1 hl).2) hr

def intersects (s t : SortedSet α) : Bool := meets s.toList t.toList

theorem intersects_iff {s t : SortedSet α} : s.intersects t = true ↔ ∃ a ∈ s, a ∈ t :=
  meets_iff s.increasing t.increasing

/-- A larger set is no subset. -/
def isSubset (s t : SortedSet α) : Bool := s.size ≤ t.size && (s.difference t).isEmpty

theorem isSubset_iff {s t : SortedSet α} : s.isSubset t = true ↔ ∀ a ∈ s, a ∈ t := by
  rw [isSubset, Bool.and_eq_true, isEmpty_iff, decide_eq_true_iff]
  constructor
  · intro h a ha
    have hnot := h.2 a
    rw [mem_difference] at hnot
    exact Decidable.byContradiction fun hat => hnot ⟨ha, hat⟩
  · intro h
    refine ⟨s.nodup.length_le_of_subset fun a ha => h a ha, fun a ha => ?_⟩
    rw [mem_difference] at ha
    exact ha.2 (h a ha.1)

end SortedSet

end ProgramFlow
