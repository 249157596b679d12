import ProgramFlow.Collection.SortedMap
/-!
Lists kept under keys. An item goes to the end of the list of its key; a key that no item came
with has the empty list.
-/
namespace ProgramFlow

structure Buckets (κ α : Type) [Ord κ] where
  lists : SortedMap κ (List α)
  deriving DecidableEq

namespace Buckets

variable {κ α β : Type} [Ord κ]

def empty : Buckets κ α := ⟨∅⟩

instance : EmptyCollection (Buckets κ α) := ⟨empty⟩

def get (b : Buckets κ α) (k : κ) : List α := (b.lists.find? k).getD []

/-- The keys that items came with. -/
def keys (b : Buckets κ α) : List κ := b.lists.keys

/-- All items, key by key. -/
def items (b : Buckets κ α) : List α := b.lists.entries.flatMap Prod.snd

@[simp] theorem get_empty (k : κ) : (∅ : Buckets κ α).get k = [] := rfl

variable [Std.LawfulEqOrd κ]

theorem nodup_keys (b : Buckets κ α) : b.keys.Nodup := by
  refine List.Pairwise.map Prod.fst (fun x y hlt heq => ?_) b.lists.increasing
  rw [heq, Std.ReflOrd.compare_self] at hlt
  cases hlt

variable [Std.TransOrd κ]

def push (b : Buckets κ α) (k : κ) (x : α) : Buckets κ α := ⟨b.lists.update k [] (· ++ [x])⟩

/-- Pushes the items that come with keys, one after the other. -/
def pushAll (b : Buckets κ α) (key : β → κ) (item : β → α) (l : List β) : Buckets κ α :=
  l.foldl (fun b x => b.push (key x) (item x)) b

theorem mem_items {b : Buckets κ α} {x : α} : x ∈ b.items ↔ ∃ k, x ∈ b.get k := by
  simp only [items, get, List.mem_flatMap]
  constructor
  · rintro ⟨⟨k, l⟩, hl, hx⟩
    exact ⟨k, by rwa [SortedMap.find?_eq_some_iff.2 hl]⟩
  · rintro ⟨k, hx⟩
    cases hl : b.lists.find? k with
    | none =>
      rw [hl] at hx
      cases hx
    | some l =>
      rw [hl] at hx
      exact ⟨(k, l), SortedMap.find?_eq_some_iff.1 hl, hx⟩

theorem mem_keys_of_mem_get {b : Buckets κ α} {k : κ} {x : α} (hx : x ∈ b.get k) : k ∈ b.keys := by
  unfold get at hx
  cases hl : b.lists.find? k with
  | none =>
    rw [hl] at hx
    cases hx
  | some l => exact List.mem_map_of_mem (f := Prod.fst) (SortedMap.find?_eq_some_iff.1 hl)

variable [DecidableEq κ]

theorem get_push (b : Buckets κ α) (k j : κ) (x : α) :
    (b.push k x).get j = if j = k then b.get k ++ [x] else b.get j :=
  SortedMap.getD_find?_update ..

/-- The list of a key gets the items that come with the key, in their order. -/
theorem get_pushAll (b : Buckets κ α) (key : β → κ) (item : β → α) (l : List β) (k : κ) :
    (b.pushAll key item l).get k = b.get k ++ (l.filter (key · = k)).map item := by
  induction l generalizing b with
  | nil => exact (List.append_nil _).symm
  | cons x l ih =>
    rw [pushAll, List.foldl_cons, ← pushAll, ih, get_push]
    by_cases hk : key x = k
    · subst hk
      simp
    · simp [hk, Ne.symm hk]

end Buckets

end ProgramFlow
