import ProgramFlow.Collection.SortedMap
import ProgramFlow.Collection.SortedSet
import ProgramFlow.Constants.Value
import ProgramFlow.Syntax.Instr
/-!
Facts of constant propagation: a value for each variable, all but finitely many undefined. Facts
are ordered and merged variable by variable, and facts with the same values are equal.
-/
namespace ProgramFlow

/-- A value that is worth storing. -/
abbrev KnownValue := { x : Value // x ≠ .undef }

structure Fact where
  values : SortedMap VarId KnownValue
  deriving DecidableEq

namespace Fact

instance : EmptyCollection Fact := ⟨⟨∅⟩⟩

instance : Inhabited Fact := ⟨∅⟩

def get (f : Fact) (v : VarId) : Value := (f.values.find? v).elim .undef (·.val)

def set (f : Fact) (v : VarId) (x : Value) : Fact :=
  if h : x = .undef then ⟨f.values.erase v⟩ else ⟨f.values.insert v ⟨x, h⟩⟩

/-- The variables with a stored value, in order, with their values. -/
def entries (f : Fact) : List (VarId × Value) := f.values.entries.map fun (v, x) => (v, x.val)

def size (f : Fact) : Nat := f.values.size

def isEmpty (f : Fact) : Bool := f.values.isEmpty

/-- Later entries win. -/
def ofList (l : List (VarId × Value)) : Fact := l.foldl (fun f e => f.set e.1 e.2) ∅

def merge (f g : Fact) : Fact :=
  g.values.entries.foldl (fun f e => f.set e.1 ((f.get e.1).merge e.2.val)) f

/-- Every stored value is at or below the other fact's. -/
def isBelow (f g : Fact) : Bool := f.values.all fun v x => decide (x.val ≤ g.get v)

/-- The fact with a new value, and whether a stored value is gone or another one is stored. -/
def update (f : Fact) (v : VarId) (x : Value) : Change Fact :=
  if h : x = .undef then ⟨(f.values.find? v).isSome, ⟨f.values.erase v⟩⟩
  else ⟨decide (f.values.find? v ≠ some ⟨x, h⟩), ⟨f.values.insert v ⟨x, h⟩⟩⟩

/-- The stored value of a variable, and the fact without it. -/
def remove (f : Fact) (v : VarId) : Option Value × Fact :=
  ((f.values.find? v).map (·.val), f.set v .undef)

/-- The second fact, and whether it differs from the first. -/
def replace (f g : Fact) : Change Fact := ⟨decide (f ≠ g), g⟩

@[simp] theorem get_empty (v : VarId) : (∅ : Fact).get v = .undef := rfl

@[simp] theorem get_set (f : Fact) (v w : VarId) (x : Value) :
    (f.set v x).get w = if w = v then x else f.get w := by
  unfold set
  split
  · next h =>
    rw [get, SortedMap.find?_erase]
    split
    · exact h.symm
    · rfl
  · rw [get, SortedMap.find?_insert]
    split <;> rfl

theorem get_eq_of_mem {f : Fact} {v : VarId} {x : KnownValue} (h : (v, x) ∈ f.values.entries) :
    f.get v = x.val := by
  rw [get, SortedMap.find?_eq_some_iff.2 h]
  rfl

theorem ext {f g : Fact} (h : ∀ v, f.get v = g.get v) : f = g := by
  obtain ⟨m⟩ := f
  obtain ⟨n⟩ := g
  congr 1
  refine SortedMap.ext fun v => ?_
  have hv := h v
  simp only [get] at hv
  cases hm : m.find? v with
  | none =>
    cases hn : n.find? v with
    | none => rfl
    | some y =>
      rw [hm, hn] at hv
      exact absurd hv.symm y.property
  | some x =>
    cases hn : n.find? v with
    | none =>
      rw [hm, hn] at hv
      exact absurd hv x.property
    | some y =>
      rw [hm, hn] at hv
      exact congrArg some (Subtype.ext hv)

theorem get_foldl_merge (l : List (VarId × KnownValue))
    (hl : l.Pairwise fun a b => compare a.1 b.1 = .lt) (f : Fact) (v : VarId) :
    (l.foldl (fun f e => f.set e.1 ((f.get e.1).merge e.2.val)) f).get v =
      (f.get v).merge ((SortedMap.lookup v l).elim .undef (·.val)) := by
  induction l generalizing f with
  | nil => simp [SortedMap.lookup]
  | cons e l ih =>
    have he := List.pairwise_cons.1 hl
    rw [List.foldl_cons, ih he.2, get_set]
    simp only [SortedMap.lookup]
    by_cases hv : v = e.1
    · have hnone : SortedMap.lookup v l = none :=
        SortedMap.lookup_eq_none fun d hd hde => by
          have := he.1 d hd
          rw [hde, hv] at this
          simp [Std.ReflCmp.compare_self] at this
      rw [hnone, if_pos hv, if_pos (SortedMap.compare_eq_iff.2 hv), hv]
      simp
    · rw [if_neg hv, if_neg fun h => hv (SortedMap.compare_eq_iff.1 h)]

@[simp] theorem get_merge (f g : Fact) (v : VarId) :
    (f.merge g).get v = (f.get v).merge (g.get v) := by
  rw [merge, get_foldl_merge _ g.values.increasing]
  rfl

theorem isBelow_iff {f g : Fact} : f.isBelow g = true ↔ ∀ v, f.get v ≤ g.get v := by
  simp only [isBelow, SortedMap.all, List.all_eq_true, decide_eq_true_eq]
  constructor
  · intro h v
    cases hv : f.values.find? v with
    | none =>
      rw [get, hv]
      exact Value.undef_le _
    | some x =>
      have hx := SortedMap.find?_eq_some_iff.1 hv
      rw [get_eq_of_mem hx]
      exact h _ hx
  · intro h e he
    rw [← get_eq_of_mem he]
    exact h e.1

theorem set_get (f : Fact) (v : VarId) : f.set v (f.get v) = f := by
  refine ext fun w => ?_
  rw [get_set]
  split
  · next hw => rw [hw]
  · rfl

theorem update_value (f : Fact) (v : VarId) (x : Value) : (f.update v x).value = f.set v x := by
  unfold update set
  split <;> rfl

theorem set_eq_self_iff {f : Fact} {v : VarId} {x : Value} : f.set v x = f ↔ f.get v = x := by
  refine ⟨fun h => ?_, fun h => h ▸ f.set_get v⟩
  rw [← h, get_set, if_pos rfl]

theorem update_changed {f : Fact} {v : VarId} {x : Value} :
    (f.update v x).changed = true ↔ (f.update v x).value ≠ f := by
  rw [update_value, ne_eq, set_eq_self_iff, get, update]
  split
  · next hx =>
    cases f.values.find? v with
    | none => simp [hx]
    | some y => simp [hx, y.property]
  · next hx =>
    cases f.values.find? v with
    | none => simpa using Ne.symm hx
    | some y => simp [Subtype.ext_iff]

end Fact

end ProgramFlow
