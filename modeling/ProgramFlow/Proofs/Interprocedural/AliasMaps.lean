import Mathlib.Data.List.Nodup
import Mathlib.Data.Option.Basic
import ProgramFlow.Interprocedural.Constants
import ProgramFlow.Proofs.Graph.ControlFlow
/-!
The two maps of aliases are inverse. Each pair that is linked goes into both, the pairs at one place
come from the loads and the stores there, and all of them together are those that may touch the same
place, whatever the order of the places.
-/
namespace ProgramFlow

namespace Interprocedural

variable {p : Program} {g : Supergraph} {r : PointsTo.Result} {l s : StmtId}

/-! ## Accesses -/

section Accesses

variable {nodes : List StmtId} {accesses : List (StmtId × HeapAccess)}

/-- The access of a node is listed if it is one to an integer. -/
theorem mem_intAccesses_iff (h : intAccesses p nodes = .ok accesses) {n : StmtId}
    {a : HeapAccess} : (n, a) ∈ accesses ↔ n ∈ nodes ∧ p.isIntVar a.value = .ok true ∧
      ∃ i, p.instr n = .ok i ∧ heapAccess? i = some a := by
  obtain ⟨f, hf, rfl⟩ := Outcome.filterMapM_eq_ok.1 h
  rw [List.mem_filterMap]
  constructor
  · rintro ⟨m, hm, hfm⟩
    obtain ⟨i, hi, hok⟩ := Outcome.bind_eq_ok.1 (hf m hm)
    cases ha : heapAccess? i with
    | none => simp only [ha, hfm, Outcome.pure_eq, Except.ok.injEq, reduceCtorEq] at hok
    | some b =>
      simp only [ha, hfm] at hok
      obtain ⟨int, hint, hok⟩ := Outcome.bind_eq_ok.1 hok
      cases int with
      | false => cases hok
      | true =>
        cases hok
        exact ⟨hm, hint, i, hi, ha⟩
  · rintro ⟨hn, hint, i, hi, ha⟩
    have hok := hf n hn
    simp only [hi, Outcome.ok_bind, ha, hint, if_true, Outcome.pure_eq, Except.ok.injEq] at hok
    exact ⟨n, hn, hok.symm⟩

/-- The place that a node accesses. -/
def place? (p : Program) (n : StmtId) : Option Place := do
  return (← heapAccess? (← (p.instr n).toOption)).place

theorem place?_of_heapAccess? {n : StmtId} {i : Instr} (hi : p.instr n = .ok i) {a : HeapAccess}
    (ha : heapAccess? i = some a) : place? p n = some a.place := by
  simp [place?, hi, ha, Except.toOption]

theorem place?_of_mem_intAccesses (h : intAccesses p nodes = .ok accesses) {n : StmtId}
    {a : HeapAccess} (hn : (n, a) ∈ accesses) : place? p n = some a.place := by
  obtain ⟨-, -, i, hi, ha⟩ := (mem_intAccesses_iff h).1 hn
  exact place?_of_heapAccess? hi ha

theorem accessTable_eq (h : intAccesses p g.nodes = .ok accesses) :
    accessTable p g = .ok (.ofAccesses accesses) := by
  rw [accessTable, h]
  rfl

def ofKind (kind : AccessKind) (accesses : List (StmtId × HeapAccess)) :
    List (StmtId × HeapAccess) :=
  accesses.filter (·.2.kind = kind)

theorem mem_ofKind {kind : AccessKind} {x : StmtId × HeapAccess} :
    x ∈ ofKind kind accesses ↔ x ∈ accesses ∧ x.2.kind = kind := by
  rw [ofKind, List.mem_filter, decide_eq_true_eq]

end Accesses

/-! ## Pairs -/

section Pairs

variable {α β : Type} {matching : α → α → Bool} {loads stores : List (StmtId × α)}

/-- Pairs a load with the stores that match it. -/
def pairsOf (matching : α → α → Bool) (stores : List (StmtId × α)) (x : StmtId × α) :
    List (StmtId × StmtId) :=
  (stores.filter fun y => matching x.2 y.2).map fun y => (x.1, y.1)

/-- Pairs each load with the stores that match it. -/
def pairUp (matching : α → α → Bool) (loads stores : List (StmtId × α)) : List (StmtId × StmtId) :=
  loads.flatMap (pairsOf matching stores)

theorem pairUp_cons {x : StmtId × α} : pairUp matching (x :: loads) stores =
    pairsOf matching stores x ++ pairUp matching loads stores :=
  List.flatMap_cons

theorem pairUp_map (f : β → α) {loads stores : List (StmtId × β)} :
    pairUp matching (loads.map fun x => (x.1, f x.2)) (stores.map fun x => (x.1, f x.2)) =
      pairUp (fun a b => matching (f a) (f b)) loads stores := by
  rw [pairUp, List.flatMap_map]
  refine congrArg (List.flatMap · loads) (funext fun x => ?_)
  simp [pairsOf, List.filter_map, Function.comp_def]

theorem mem_pairsOf_iff {x : StmtId × α} : (l, s) ∈ pairsOf matching stores x ↔
    x.1 = l ∧ ∃ b, (s, b) ∈ stores ∧ matching x.2 b = true := by
  constructor
  · intro h
    obtain ⟨⟨s', b⟩, hs, h⟩ := List.mem_map.1 h
    cases h
    obtain ⟨hs, hmatch⟩ := List.mem_filter.1 hs
    exact ⟨rfl, b, hs, hmatch⟩
  · intro h
    obtain ⟨rfl, b, hs, hmatch⟩ := h
    exact List.mem_map.2 ⟨(s, b), List.mem_filter.2 ⟨hs, hmatch⟩, rfl⟩

theorem mem_pairUp_iff : (l, s) ∈ pairUp matching loads stores ↔
    ∃ a b, (l, a) ∈ loads ∧ (s, b) ∈ stores ∧ matching a b = true := by
  constructor
  · intro h
    obtain ⟨⟨l', a⟩, hl, h⟩ := List.mem_flatMap.1 h
    obtain ⟨rfl, b, hs, hmatch⟩ := mem_pairsOf_iff.1 h
    exact ⟨a, b, hl, hs, hmatch⟩
  · intro h
    obtain ⟨a, b, hl, hs, hmatch⟩ := h
    exact List.mem_flatMap.2 ⟨(l, a), hl, mem_pairsOf_iff.2 ⟨rfl, b, hs, hmatch⟩⟩

end Pairs

section Places

variable {α κ : Type} [DecidableEq κ] {xs : List α} {key : α → κ} {keys : List κ}

/-- Seen through a filter that passes only one key, items grouped by their keys are in the order
that they had. -/
theorem filter_groups (hkeys : keys.Nodup) {P : α → Bool} (hmem : ∀ a ∈ xs, key a ∈ keys)
    (hsame : ∀ a ∈ xs, ∀ b ∈ xs, P a = true → P b = true → key a = key b) :
    (keys.flatMap fun k => xs.filter (key · = k)).filter P = xs.filter P := by
  by_cases hex : ∃ a ∈ xs, P a = true
  · obtain ⟨a, ha, hP⟩ := hex
    rw [filter_flatMap_eq hkeys (hmem a ha), List.filter_filter]
    · apply List.filter_congr
      intro b hb
      cases hPb : P b with
      | false => rfl
      | true => exact decide_eq_true (hsame b hb a ha hPb hP)
    · intro k _ hne b hb
      obtain ⟨hb, hk⟩ := List.mem_filter.1 hb
      cases hPb : P b with
      | false => rfl
      | true => exact absurd ((of_decide_eq_true hk).symm.trans (hsame b hb a ha hPb hP)) hne
  · have hnone : ∀ a ∈ xs, ¬P a = true := fun a ha hP => hex ⟨a, ha, hP⟩
    rw [List.filter_eq_nil_iff.2 hnone, List.filter_eq_nil_iff]
    intro b hb
    obtain ⟨k, -, hb⟩ := List.mem_flatMap.1 hb
    exact hnone b (List.mem_filter.1 hb).1

variable {loads stores : List (StmtId × HeapAccess)}

theorem pairsOf_filter {x : StmtId × HeapAccess} :
    pairsOf (fun a b => mayShareBase r a.base b.base) (stores.filter (·.2.place = x.2.place)) x =
      pairsOf (mayTouchSame r) stores x := by
  rw [pairsOf, pairsOf, List.filter_filter]
  refine congrArg _ (List.filter_congr fun y _ => ?_)
  rw [mayTouchSame, Bool.and_comm, decide_eq_decide.2 eq_comm]

/-- The loads and stores at one place pair up to those pairs that are at that place. -/
theorem pairUp_filter {place? : StmtId → Option Place}
    (hplace : ∀ x ∈ loads, place? x.1 = some x.2.place) (k : Place) :
    pairUp (fun a b => mayShareBase r a.base b.base) (loads.filter (·.2.place = k))
      (stores.filter (·.2.place = k)) =
    (pairUp (mayTouchSame r) loads stores).filter (place? ·.1 = some k) := by
  induction loads with
  | nil => rfl
  | cons x loads ih =>
    rw [List.forall_mem_cons] at hplace
    have hx : ∀ q ∈ pairsOf (mayTouchSame r) stores x, place? q.1 = some x.2.place := by
      intro q hq
      rw [← (mem_pairsOf_iff.1 hq).1, hplace.1]
    have ih := ih hplace.2
    rw [pairUp_cons, List.filter_append, ← ih]
    by_cases hk : x.2.place = k
    · subst hk
      rw [List.filter_cons_of_pos (by simp), pairUp_cons, pairsOf_filter,
        List.filter_eq_self.2 fun q hq => decide_eq_true (hx q hq)]
    · have hnone : ∀ q ∈ pairsOf (mayTouchSame r) stores x, ¬decide (place? q.1 = some k) = true :=
        fun q hq he => hk (Option.some.inj ((hx q hq).symm.trans (of_decide_eq_true he)))
      rw [List.filter_cons_of_neg (by simpa using hk), List.filter_eq_nil_iff.2 hnone,
        List.nil_append]

end Places

/-! ## Tables of accesses -/

namespace AccessTable

/-- The accesses of both kinds go into the buckets of their places. -/
theorem ofAccesses_eq (accesses : List (StmtId × HeapAccess)) : ofAccesses accesses = {
    loads := Buckets.pushAll ∅ (·.2.place) (fun x => (x.1, x.2.base)) (ofKind .load accesses)
    stores :=
      Buckets.pushAll ∅ (·.2.place) (fun x => (x.1, x.2.base)) (ofKind .store accesses) } := by
  suffices h : ∀ t : AccessTable, accesses.foldl (fun t x => t.add x.1 x.2) t = {
      loads := t.loads.pushAll (·.2.place) (fun x => (x.1, x.2.base)) (ofKind .load accesses)
      stores := t.stores.pushAll (·.2.place) (fun x => (x.1, x.2.base)) (ofKind .store accesses) }
    from h {}
  induction accesses with
  | nil => exact fun _ => rfl
  | cons x accesses ih =>
    intro t
    obtain ⟨n, kind, place, base, value⟩ := x
    rw [List.foldl_cons, ih]
    cases kind <;> rfl

/-- The pairs of loads and stores at a place. -/
def pairsAt (r : PointsTo.Result) (t : AccessTable) (place : Place) : List (StmtId × StmtId) :=
  pairUp (mayShareBase r) (t.loads.get place) (t.stores.get place)

theorem pairsAt_ofAccesses {nodes : List StmtId} {accesses : List (StmtId × HeapAccess)}
    (h : intAccesses p nodes = .ok accesses) (k : Place) :
    (ofAccesses accesses).pairsAt r k =
      (pairUp (mayTouchSame r) (ofKind .load accesses) (ofKind .store accesses)).filter
        (place? p ·.1 = some k) := by
  rw [pairsAt, ofAccesses_eq, Buckets.get_pushAll, Buckets.get_pushAll, Buckets.get_empty,
    List.nil_append, List.nil_append, pairUp_map HeapAccess.base]
  exact pairUp_filter (fun x hx => place?_of_mem_intAccesses h (mem_ofKind.1 hx).1) k

theorem nodup_keys (t : AccessTable) : t.loads.keys.Nodup := t.loads.nodup_keys

/-- There is a key for the place of each load. -/
theorem place_mem_keys {accesses : List (StmtId × HeapAccess)} {x : StmtId × HeapAccess}
    (hx : x ∈ ofKind .load accesses) : x.2.place ∈ (ofAccesses accesses).loads.keys := by
  have hmem : (x.1, x.2.base) ∈ (ofAccesses accesses).loads.get x.2.place := by
    rw [ofAccesses_eq, Buckets.get_pushAll]
    exact List.mem_append_right _
      (List.mem_map_of_mem (List.mem_filter.2 ⟨hx, decide_eq_true rfl⟩))
  exact Buckets.mem_keys_of_mem_get hmem

end AccessTable

/-! ## Maps filled from both sides -/

namespace Aliases

/-- What comes of linking pairs, one after the other. -/
def ofPairs (pairs : List (StmtId × StmtId)) : Aliases :=
  pairs.foldl (fun a q => a.link q.1 q.2) {}

theorem ofPairs_eq (pairs : List (StmtId × StmtId)) : ofPairs pairs = {
    sources := Buckets.pushAll ∅ Prod.fst Prod.snd pairs
    readers := Buckets.pushAll ∅ Prod.snd Prod.fst pairs } := by
  suffices h : ∀ a : Aliases, pairs.foldl (fun a q => a.link q.1 q.2) a = {
      sources := a.sources.pushAll Prod.fst Prod.snd pairs
      readers := a.readers.pushAll Prod.snd Prod.fst pairs } from h {}
  induction pairs with
  | nil => exact fun _ => rfl
  | cons q pairs ih => exact fun a => ih (a.link q.1 q.2)

theorem storesFor_ofPairs (pairs : List (StmtId × StmtId)) (l : StmtId) :
    (ofPairs pairs).storesFor l = (pairs.filter (·.1 = l)).map Prod.snd := by
  rw [ofPairs_eq, storesFor, Buckets.get_pushAll]
  rfl

theorem loadsFor_ofPairs (pairs : List (StmtId × StmtId)) (s : StmtId) :
    (ofPairs pairs).loadsFor s = (pairs.filter (·.2 = s)).map Prod.fst := by
  rw [ofPairs_eq, loadsFor, Buckets.get_pushAll]
  rfl

theorem mem_storesFor_ofPairs {pairs : List (StmtId × StmtId)} :
    s ∈ (ofPairs pairs).storesFor l ↔ (l, s) ∈ pairs := by
  simp [storesFor_ofPairs]

theorem mem_loadsFor_ofPairs {pairs : List (StmtId × StmtId)} :
    l ∈ (ofPairs pairs).loadsFor s ↔ (l, s) ∈ pairs := by
  simp [loadsFor_ofPairs]

theorem linkAt_eq (t : AccessTable) (a : Aliases) (place : Place) :
    linkAt r t a place = (t.pairsAt r place).foldl (fun a q => a.link q.1 q.2) a := by
  simp only [linkAt, AccessTable.pairsAt, pairUp, pairsOf, List.foldl_flatMap, List.foldl_map,
    List.foldl_filter]

theorem ofTable_eq (t : AccessTable) (places : List Place) :
    ofTable r t places = ofPairs (places.flatMap (t.pairsAt r)) := by
  rw [ofTable, ofPairs, List.foldl_flatMap]
  exact congrArg (fun f => places.foldl f {}) (funext fun a => funext (linkAt_eq t a))

end Aliases

section Building

variable {nodes : List StmtId} {accesses : List (StmtId × HeapAccess)}
  (h : intAccesses p nodes = .ok accesses)

/-- The pairs that may touch the same place, by load and then by store in the order of the nodes. -/
def touching (r : PointsTo.Result) (accesses : List (StmtId × HeapAccess)) :
    List (StmtId × StmtId) :=
  pairUp (mayTouchSame r) (ofKind .load accesses) (ofKind .store accesses)

theorem mem_touching_iff : (l, s) ∈ touching r accesses ↔ ∃ a b, (l, a) ∈ accesses ∧
    a.kind = .load ∧ (s, b) ∈ accesses ∧ b.kind = .store ∧ mayTouchSame r a b = true := by
  simp only [touching, mem_pairUp_iff, mem_ofKind, and_assoc]

include h

/-- Loads and stores that may touch the same place access one. -/
theorem place?_of_mem_touching (hq : (l, s) ∈ touching r accesses) :
    place? p l = place? p s ∧
      ∃ k ∈ (AccessTable.ofAccesses accesses).loads.keys, place? p l = some k := by
  obtain ⟨a, b, hl, hk, hs, -, htouch⟩ := mem_touching_iff.1 hq
  rw [mayTouchSame, Bool.and_eq_true, decide_eq_true_eq] at htouch
  rw [place?_of_mem_intAccesses h hl, place?_of_mem_intAccesses h hs]
  exact ⟨congrArg some htouch.1, a.place, AccessTable.place_mem_keys (mem_ofKind.2 ⟨hl, hk⟩), rfl⟩

/-- Linked place by place, each load finds the stores that it may read and each store the loads,
in the order of the nodes. -/
theorem maps_ofTable {places : List Place} (hplaces : places.Nodup)
    (hall : ∀ l s, (l, s) ∈ touching r accesses → ∀ k, place? p l = some k → k ∈ places) :
    (Aliases.ofTable r (.ofAccesses accesses) places).storesFor =
        (Aliases.ofPairs (touching r accesses)).storesFor ∧
      (Aliases.ofTable r (.ofAccesses accesses) places).loadsFor =
        (Aliases.ofPairs (touching r accesses)).loadsFor := by
  have hpairs : places.flatMap ((AccessTable.ofAccesses accesses).pairsAt r) =
      (places.map some).flatMap fun k => (touching r accesses).filter (place? p ·.1 = k) := by
    rw [List.flatMap_map]
    exact congrArg (List.flatMap · places) (funext fun k => AccessTable.pairsAt_ofAccesses h k)
  have hkeys : (places.map some).Nodup := hplaces.map (Option.some_injective Place)
  have hmem : ∀ q ∈ touching r accesses, place? p q.1 ∈ places.map some := by
    intro q hq
    obtain ⟨-, k, -, hk⟩ := place?_of_mem_touching h hq
    rw [hk]
    exact List.mem_map_of_mem (hall _ _ hq k hk)
  rw [Aliases.ofTable_eq, hpairs]
  constructor
  · funext l
    rw [Aliases.storesFor_ofPairs, Aliases.storesFor_ofPairs, filter_groups hkeys hmem]
    intro q _ q' _ hl hl'
    rw [of_decide_eq_true hl, of_decide_eq_true hl']
  · funext s
    rw [Aliases.loadsFor_ofPairs, Aliases.loadsFor_ofPairs, filter_groups hkeys hmem]
    intro q hq q' hq' hs hs'
    rw [(place?_of_mem_touching h hq).1, (place?_of_mem_touching h hq').1,
      of_decide_eq_true hs, of_decide_eq_true hs']

end Building

/-- The maps of aliases hold the pairs that may touch the same place, whichever place was taken
first. -/
theorem exists_of_aliases {al : Aliases} (h : aliases p g r = .ok al) :
    ∃ accesses, intAccesses p g.nodes = .ok accesses ∧
      al.storesFor = (Aliases.ofPairs (touching r accesses)).storesFor ∧
      al.loadsFor = (Aliases.ofPairs (touching r accesses)).loadsFor := by
  obtain ⟨t, ht, h⟩ := Outcome.bind_eq_ok.1 h
  obtain ⟨accesses, haccesses, ht⟩ := Outcome.bind_eq_ok.1 ht
  cases ht
  cases h
  refine ⟨accesses, haccesses, maps_ofTable haccesses (AccessTable.nodup_keys _) ?_⟩
  intro l s hq k hk
  obtain ⟨-, k', hmem, hk'⟩ := place?_of_mem_touching haccesses hq
  cases hk.symm.trans hk'
  exact hmem

end Interprocedural

end ProgramFlow
