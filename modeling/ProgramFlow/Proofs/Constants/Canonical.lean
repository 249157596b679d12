import ProgramFlow.Proofs.Collection.Registers
import ProgramFlow.Proofs.Constants.Order
/-!
Facts as functions from variables to values. A fact stores the known values and nothing else, so facts
with the same values are equal, and every operation tells truthfully whether it changes a value. The
facts are a semilattice under merging, in whatever order the entries are merged.
-/
namespace ProgramFlow

namespace Fact

/-- What can be done to the fact in a register. -/
inductive Step
  | clear
  | collect (entries : List (VarId × Value))
  | update (v : VarId) (x : Value)
  | remove (v : VarId)
  | copy (source : Nat)
  | merge (source : Nat)

namespace Step

def act : Step → Fact → (Nat → Fact) → Fact
  | clear, _, _ => ∅
  | collect entries, _, _ => .ofList entries
  | update v x, f, _ => (f.update v x).value
  | remove v, f, _ => (f.remove v).2
  | copy source, f, facts => (f.replace (facts source)).value
  | merge source, f, facts => f.merge (facts source)

/-- What an operation reports: whether an update or a copy changes the fact, and whether there is a
value to remove. -/
def report : Step → Fact → (Nat → Fact) → Option Bool
  | update v x, f, _ => some (f.update v x).changed
  | remove v, f, _ => some (f.remove v).1.isSome
  | copy source, f, facts => some (f.replace (facts source)).changed
  | _, _, _ => none

/-- What an operation does to functions from variables to values. -/
def onValues : Step → (VarId → Value) → (Nat → VarId → Value) → VarId → Value
  | clear, _, _ => fun _ => .undef
  | collect entries, _, _ =>
    entries.foldl (fun h e => Function.update h e.1 e.2) fun _ => .undef
  | update v x, h, _ => Function.update h v x
  | remove v, h, _ => Function.update h v .undef
  | copy source, _, values => values source
  | merge source, h, values => fun v => (h v).merge (values source v)

end Step

theorem get_set_eq_update (f : Fact) (v : VarId) (x : Value) :
    (f.set v x).get = Function.update f.get v x := by
  funext w
  rw [get_set, Function.update_apply]

theorem get_inj {f g : Fact} : f.get = g.get ↔ f = g := by
  constructor
  · intro h
    exact ext (congrFun h)
  · exact congrArg get

theorem get_foldl_set_eq_update (entries : List (VarId × Value)) (f : Fact) :
    (entries.foldl (fun f e => f.set e.1 e.2) f).get =
      entries.foldl (fun h e => Function.update h e.1 e.2) f.get := by
  induction entries generalizing f with
  | nil => rfl
  | cons e entries ih => rw [List.foldl_cons, List.foldl_cons, ih, get_set_eq_update]

theorem mem_entries_iff {f : Fact} {v : VarId} {x : Value} :
    (v, x) ∈ f.entries ↔ x ≠ .undef ∧ f.get v = x := by
  constructor
  · intro h
    obtain ⟨⟨w, y⟩, hmem, heq⟩ := List.mem_map.1 h
    cases heq
    exact ⟨y.property, get_eq_of_mem hmem⟩
  · intro h
    obtain ⟨hne, hget⟩ := h
    cases hv : f.values.find? v with
    | none =>
      rw [get, hv] at hget
      exact absurd hget.symm hne
    | some y =>
      rw [get, hv] at hget
      exact List.mem_map.2 ⟨(v, y), SortedMap.find?_eq_some_iff.1 hv, congrArg (v, ·) hget⟩

theorem nodup_keys (f : Fact) : (f.entries.map Prod.fst).Nodup := by
  rw [entries, List.map_map, List.nodup_iff_pairwise_ne, List.pairwise_map]
  apply f.values.increasing.imp
  intro a b hlt heq
  have hkeys : a.1 = b.1 := heq
  rw [hkeys] at hlt
  simp [Std.ReflCmp.compare_self] at hlt

/-- What a removal gives back is the value that it takes away. -/
theorem remove_eq_some_iff {f : Fact} {v : VarId} {x : Value} :
    (f.remove v).1 = some x ↔ x ≠ .undef ∧ f.get v = x := by
  rw [← mem_entries_iff, entries, List.mem_map, remove, Option.map_eq_some_iff]
  constructor
  · intro h
    obtain ⟨y, hy, rfl⟩ := h
    exact ⟨(v, y), SortedMap.find?_eq_some_iff.1 hy, rfl⟩
  · intro h
    obtain ⟨⟨w, y⟩, hmem, heq⟩ := h
    cases heq
    exact ⟨y, SortedMap.find?_eq_some_iff.2 hmem, rfl⟩

theorem isSome_remove_iff {f : Fact} {v : VarId} :
    (f.remove v).1.isSome = true ↔ f.get v ≠ .undef := by
  rw [Option.isSome_iff_exists]
  constructor
  · intro h
    obtain ⟨x, hx⟩ := h
    obtain ⟨hne, rfl⟩ := remove_eq_some_iff.1 hx
    exact hne
  · intro h
    exact ⟨f.get v, remove_eq_some_iff.2 ⟨h, rfl⟩⟩

theorem exists_get_ne_iff {f g : Fact} : (∃ v, g.get v ≠ f.get v) ↔ g ≠ f := by
  rw [← Function.ne_iff, ne_eq, get_inj]

namespace Step

theorem get_act (o : Step) (f : Fact) (facts : Nat → Fact) :
    (o.act f facts).get = o.onValues f.get (get ∘ facts) := by
  cases o with
  | clear => rfl
  | collect entries => exact get_foldl_set_eq_update entries ∅
  | update v x =>
    rw [act, update_value]
    exact get_set_eq_update f v x
  | remove v => exact get_set_eq_update f v .undef
  | copy source => rfl
  | merge source =>
    funext v
    exact get_merge f (facts source) v

/-- What an operation reports is whether a value has changed. -/
theorem report_iff {o : Step} {f : Fact} {facts : Nat → Fact} {b : Bool}
    (h : o.report f facts = some b) : b = true ↔ ∃ v, (o.act f facts).get v ≠ f.get v := by
  rw [exists_get_ne_iff]
  cases o with
  | update v x =>
    cases h
    exact update_changed
  | remove v =>
    cases h
    exact isSome_remove_iff.trans (not_congr set_eq_self_iff).symm
  | copy source =>
    cases h
    exact (decide_eq_true_iff).trans ne_comm
  | _ => cases h

end Step

/-- The facts in the registers have the values of these functions. They store each known value once and
no unknown one, so that they are equal when the functions are, and compare value by value. -/
structure Canonical (facts : Nat → Fact) (values : Nat → VarId → Value) : Prop where
  get : ∀ i v, (facts i).get v = values i v
  stored : ∀ i v x, (v, x) ∈ (facts i).entries ↔ x ≠ .undef ∧ values i v = x
  once : ∀ i, ((facts i).entries.map Prod.fst).Nodup
  eq_iff : ∀ i j, facts i = facts j ↔ ∀ v, values i v = values j v
  isBelow : ∀ i j, (facts i).isBelow (facts j) = true ↔
    ∀ v, values i v = .undef ∨ values i v = values j v ∨ values j v = .nac
  removed : ∀ i v x, ((facts i).remove v).1 = some x ↔ x ≠ .undef ∧ values i v = x
  reports : ∀ (o : Step) i b, o.report (facts i) facts = some b →
    (b = true ↔ ∃ v, o.onValues (values i) values v ≠ values i v)

theorem canonical_get (facts : Nat → Fact) : Canonical facts (Fact.get ∘ facts) where
  get _ _ := rfl
  stored _ _ _ := mem_entries_iff
  once i := (facts i).nodup_keys
  eq_iff _ _ := get_inj.symm.trans funext_iff
  isBelow _ _ := isBelow_iff.trans (forall_congr' fun _ => Value.le_iff)
  removed _ _ _ := remove_eq_some_iff
  reports o i b h := by
    rw [Step.report_iff h, o.get_act]
    rfl

/-- After every sequence of operations on empty registers, these hold the values that the same
operations make of undefined ones. -/
theorem canonical_run (steps : List (Nat × Step)) :
    Canonical (Registers.run Step.act steps fun _ => ∅)
      (Registers.run Step.onValues steps fun _ _ => .undef) := by
  have hview : Fact.get ∘ Registers.run Step.act steps (fun _ : Nat => (∅ : Fact)) =
      Registers.run Step.onValues steps fun _ _ => .undef :=
    Registers.view_run Step.get_act steps fun _ => ∅
  rw [← hview]
  exact canonical_get _

/-- Merges the entries of a list into a fact, one after the other. -/
def mergeEntries (f : Fact) (entries : List (VarId × Value)) : Fact :=
  entries.foldl (fun f e => f.set e.1 ((f.get e.1).merge e.2)) f

theorem merge_eq_mergeEntries (f g : Fact) : f.merge g = f.mergeEntries g.entries := by
  rw [mergeEntries, entries, List.foldl_map]
  rfl

/-- To merge an entry is to merge the fact of that entry alone. -/
theorem set_merge_eq (f : Fact) (v : VarId) (x : Value) :
    f.set v ((f.get v).merge x) = f ⊔ (∅ : Fact).set v x := by
  apply ext
  intro w
  rw [sup_eq_merge, get_merge, get_set, get_set]
  split
  · next hw => rw [hw]
  · rw [get_empty, Value.merge_undef]

/-- The order in which entries are merged does not matter. -/
theorem mergeEntries_perm {l l' : List (VarId × Value)} (h : l.Perm l') (f : Fact) :
    f.mergeEntries l = f.mergeEntries l' := by
  apply h.foldl_eq'
  intro d _ e _ g
  rw [set_merge_eq, set_merge_eq, set_merge_eq, set_merge_eq, sup_right_comm]

/-- Facts are partially ordered with the empty one at the bottom, and merging two of them yields the
least one above both, in whatever order the entries of the second are visited. -/
structure Semilattice : Prop where
  refl : ∀ f : Fact, f.isBelow f = true
  trans : ∀ f g k : Fact, f.isBelow g = true → g.isBelow k = true → f.isBelow k = true
  antisymm : ∀ f g : Fact, f.isBelow g = true → g.isBelow f = true → f = g
  empty_isBelow : ∀ f : Fact, (∅ : Fact).isBelow f = true
  isBelow_merge : ∀ f g : Fact, f.isBelow (f.merge g) = true ∧ g.isBelow (f.merge g) = true
  merge_isBelow : ∀ f g k : Fact, f.isBelow k = true → g.isBelow k = true →
    (f.merge g).isBelow k = true
  merge_perm : ∀ (f g : Fact) l, l.Perm g.entries → f.mergeEntries l = f.merge g
  merge_comm : ∀ f g : Fact, f.merge g = g.merge f
  merge_assoc : ∀ f g k : Fact, (f.merge g).merge k = f.merge (g.merge k)
  merge_self : ∀ f : Fact, f.merge f = f

theorem semilattice : Semilattice where
  refl f := le_refl f
  trans _ _ _ h h' := le_trans (α := Fact) h h'
  antisymm _ _ h h' := le_antisymm (α := Fact) h h'
  empty_isBelow _ := bot_le (α := Fact)
  isBelow_merge _ _ := ⟨le_sup_left (α := Fact), le_sup_right (α := Fact)⟩
  merge_isBelow _ _ _ h h' := sup_le (α := Fact) h h'
  merge_perm f g _ h := (mergeEntries_perm h f).trans (f.merge_eq_mergeEntries g).symm
  merge_comm f g := sup_comm f g
  merge_assoc f g k := sup_assoc f g k
  merge_self f := sup_idem f

/-- However facts are built and changed, they represent functions of values in one way only, and they
are a semilattice under merging. -/
theorem canonical_semilattice :
    (∀ steps : List (Nat × Step), Canonical (Registers.run Step.act steps fun _ => ∅)
      (Registers.run Step.onValues steps fun _ _ => .undef)) ∧ Semilattice :=
  ⟨canonical_run, semilattice⟩

end Fact

end ProgramFlow
