import Mathlib.Data.List.ProdSigma
import ProgramFlow.Proofs.Interprocedural.Accesses
import ProgramFlow.Proofs.Interprocedural.Comparison
/-!
The pairs of loads and stores that may alias. They are complete and exact, loads find their stores and
stores their loads, and both are listed once and in the order of the nodes, whichever place is taken
first.
-/
namespace ProgramFlow.Interprocedural

variable {p : Program} {g : Supergraph} {r : PointsTo.Result} {l s : StmtId}

/-- The first instruction loads the variable `lhs` and the second one stores `rhs`, both at one static
field, at one field of bases that may alias, or in elements of arrays that may alias. -/
inductive Meets (r : PointsTo.Result) : Instr → VarId → Instr → VarId → Prop
  | staticField (lhs f rhs) :
    Meets r (.loadField lhs (.static f)) lhs (.storeField (.static f) rhs) rhs
  | instanceField (lhs f rhs) {b c} (h : r.mayAlias b c = true) :
    Meets r (.loadField lhs (.instance b f)) lhs (.storeField (.instance c f) rhs) rhs
  | arrayElement (lhs rhs) {a b : ArrayAccess} (h : r.mayAlias a.base b.base = true) :
    Meets r (.loadArray lhs a) lhs (.storeArray b rhs) rhs

/-- The nodes load and store integers at places that may be the same. -/
def Interferes (p : Program) (g : Supergraph) (r : PointsTo.Result) (l s : StmtId) : Prop :=
  l ∈ g.nodes ∧ s ∈ g.nodes ∧ ∃ load lhs store rhs, p.instr l = .ok load ∧ p.instr s = .ok store ∧
    Meets r load lhs store rhs ∧ p.isIntVar lhs = .ok true ∧ p.isIntVar rhs = .ok true

theorem mayTouchSame_iff {a b : HeapAccess} : mayTouchSame r a b = true ↔
    a.place = b.place ∧ mayShareBase r a.base b.base = true := by
  rw [mayTouchSame, Bool.and_eq_true, decide_eq_true_eq]

/-- Accesses that meet are at the same place, with bases that may be shared. -/
theorem Meets.mayTouchSame {load store : Instr} {lhs rhs : VarId} (h : Meets r load lhs store rhs)
    {a b : HeapAccess} (ha : heapAccess? load = some a) (hb : heapAccess? store = some b) :
    mayTouchSame r a b = true := by
  cases h with
  | staticField =>
    cases ha
    cases hb
    exact mayTouchSame_iff.2 ⟨rfl, rfl⟩
  | instanceField _ _ _ h =>
    cases ha
    cases hb
    exact mayTouchSame_iff.2 ⟨rfl, h⟩
  | arrayElement _ _ h =>
    cases ha
    cases hb
    exact mayTouchSame_iff.2 ⟨rfl, h⟩

theorem meets_of_mayTouchSame {load store : Instr} {a b : HeapAccess}
    (ha : heapAccess? load = some a) (hb : heapAccess? store = some b) (hload : a.kind = .load)
    (hstore : b.kind = .store) (h : mayTouchSame r a b = true) :
    Meets r load a.value store b.value := by
  obtain ⟨hplace, hbase⟩ := mayTouchSame_iff.1 h
  cases load with
  | loadField lhs access =>
    cases ha
    cases store with
    | storeField access' rhs =>
      cases hb
      cases access <;> cases access' <;> cases hplace
      · exact .staticField lhs _ rhs
      · exact .instanceField lhs _ rhs hbase
    | storeArray access' rhs =>
      cases hb
      cases access <;> cases hplace
    | loadField | loadArray =>
      cases hb
      cases hstore
    | _ => cases hb
  | loadArray lhs access =>
    cases ha
    cases store with
    | storeField access' rhs =>
      cases hb
      cases access' <;> cases hplace
    | storeArray access' rhs =>
      cases hb
      exact .arrayElement lhs rhs hbase
    | loadField | loadArray =>
      cases hb
      cases hstore
    | _ => cases hb
  | storeField | storeArray =>
    cases ha
    cases hload
  | _ => cases ha

theorem Meets.exists_heapAccess {load store : Instr} {lhs rhs : VarId}
    (h : Meets r load lhs store rhs) : ∃ a b, heapAccess? load = some a ∧
      heapAccess? store = some b ∧ a.kind = .load ∧ b.kind = .store ∧ a.value = lhs ∧
      b.value = rhs := by
  cases h <;> exact ⟨_, _, rfl, rfl, rfl, rfl, rfl, rfl⟩

theorem filterMap_sublist_map {α β : Type} {f : α → Option β} {g : α → β} {l : List α}
    (h : ∀ a ∈ l, ∀ b, f a = some b → g a = b) : (l.filterMap f).Sublist (l.map g) := by
  induction l with
  | nil => exact .slnil
  | cons a l ih =>
    rw [List.forall_mem_cons] at h
    cases ha : f a with
    | none =>
      rw [List.filterMap_cons_none ha]
      exact (ih h.2).cons (g a)
    | some b =>
      rw [List.filterMap_cons_some ha, List.map_cons, h.1 b ha]
      exact (ih h.2).cons_cons b

/-- The accesses are listed in the order of the nodes. -/
theorem intAccesses_sublist {nodes : List StmtId} {accesses : List (StmtId × HeapAccess)}
    (h : intAccesses p nodes = .ok accesses) : (accesses.map Prod.fst).Sublist nodes := by
  obtain ⟨f, hf, rfl⟩ := Outcome.filterMapM_eq_ok.1 h
  rw [List.map_filterMap]
  nth_rewrite 2 [← List.map_id nodes]
  apply filterMap_sublist_map
  intro n hn m hm
  obtain ⟨⟨m, a⟩, hx, rfl⟩ := Option.map_eq_some_iff.1 hm
  have hmem : (m, a) ∈ [n].filterMap f := List.mem_filterMap.2 ⟨n, List.mem_singleton_self n, hx⟩
  have hone : intAccesses p [n] = .ok ([n].filterMap f) :=
    Outcome.filterMapM_eq_ok.2 ⟨f, fun a ha => hf a (List.mem_singleton.1 ha ▸ hn), rfl⟩
  exact (List.mem_singleton.1 ((mem_intAccesses_iff hone).1 hmem).1).symm

section Pairs

variable {α : Type} {matching : α → α → Bool} {loads stores : List (StmtId × α)}
  {nodes : List StmtId}

theorem pairsOf_sublist (hs : (stores.map Prod.fst).Sublist nodes) (x : StmtId × α) :
    (pairsOf matching stores x).Sublist (nodes.map (Prod.mk x.1)) := by
  have hpairs : (stores.map fun y => (x.1, y.1)) = (stores.map Prod.fst).map (Prod.mk x.1) :=
    List.map_map.symm
  exact (List.filter_sublist.map _).trans (hpairs ▸ hs.map (Prod.mk x.1))

/-- The pairs follow the order of the loads and then that of the stores. -/
theorem pairUp_sublist (hl : (loads.map Prod.fst).Sublist nodes)
    (hs : (stores.map Prod.fst).Sublist nodes) :
    (pairUp matching loads stores).Sublist (nodes ×ˢ nodes) := by
  have hproduct : (loads.flatMap fun x => nodes.map (Prod.mk x.1)) =
      (loads.map Prod.fst) ×ˢ nodes :=
    (List.flatMap_map Prod.fst (fun l => nodes.map (Prod.mk l)) loads).symm
  exact (List.Sublist.flatMap_right loads fun x _ => pairsOf_sublist hs x).trans
    (hproduct ▸ hl.flatMap _)

variable (hn : nodes.Nodup) {pairs : List (StmtId × StmtId)} (h : pairs.Sublist (nodes ×ˢ nodes))
include hn h

/-- The stores of a load are in the order of the nodes. -/
theorem storesFor_sublist (l : StmtId) : ((Aliases.ofPairs pairs).storesFor l).Sublist nodes := by
  rw [Aliases.storesFor_ofPairs]
  refine ((h.filter _).map Prod.snd).trans ?_
  by_cases hl : l ∈ nodes
  · have hrow : (nodes ×ˢ nodes).filter (·.1 = l) = (nodes.map (Prod.mk l)).filter (·.1 = l) := by
      apply filter_flatMap_eq hn hl
      intro l' _ hne q hq
      obtain ⟨s, -, rfl⟩ := List.mem_map.1 hq
      exact decide_eq_false hne
    have hall : (nodes.map (Prod.mk l)).filter (·.1 = l) = nodes.map (Prod.mk l) := by
      apply List.filter_eq_self.2
      intro q hq
      obtain ⟨s, -, rfl⟩ := List.mem_map.1 hq
      exact decide_eq_true rfl
    rw [hrow, hall, List.map_map]
    exact (List.map_id nodes).subst (List.Sublist.refl _)
  · have hnil : (nodes ×ˢ nodes).filter (·.1 = l) = [] := by
      refine List.filter_eq_nil_iff.2 fun q hq he => hl ?_
      rw [← of_decide_eq_true he]
      exact (List.pair_mem_product.1 hq).1
    rw [hnil]
    exact List.nil_sublist nodes

/-- The loads of a store are in the order of the nodes. -/
theorem loadsFor_sublist (s : StmtId) : ((Aliases.ofPairs pairs).loadsFor s).Sublist nodes := by
  rw [Aliases.loadsFor_ofPairs]
  refine ((h.filter _).map Prod.fst).trans ?_
  have hcolumn (l : StmtId) :
      (((nodes.map (Prod.mk l)).filter (·.2 = s)).map Prod.fst).Sublist [l] := by
    have hcount : (nodes.filter (· = s)).length ≤ 1 := by
      rw [← List.countP_eq_length_filter]
      exact List.nodup_iff_count_le_one.1 hn s
    rw [List.filter_map, List.map_map]
    exact (List.map_const' ..).symm ▸ (List.replicate_sublist_replicate l).2 hcount
  have hrows : ((nodes ×ˢ nodes).filter (·.2 = s)).map Prod.fst =
      nodes.flatMap fun l => ((nodes.map (Prod.mk l)).filter (·.2 = s)).map Prod.fst := by
    rw [← List.map_flatMap, ← List.filter_flatMap]
    rfl
  rw [hrows]
  nth_rewrite 3 [← List.flatMap_singleton' nodes]
  exact List.Sublist.flatMap_right nodes fun l _ => hcolumn l

end Pairs

/-- Loads and stores are listed exactly for those that interfere, once and in the order of the
nodes. -/
structure Aliases.Exact (p : Program) (g : Supergraph) (r : PointsTo.Result) (al : Aliases) :
    Prop where
  two_way : ∀ l s, s ∈ al.storesFor l ↔ l ∈ al.loadsFor s
  complete : ∀ l s, s ∈ al.storesFor l ↔ Interferes p g r l s
  stores_once : ∀ l, (al.storesFor l).Nodup
  loads_once : ∀ s, (al.loadsFor s).Nodup
  stores_order : ∀ l, (al.storesFor l).Sublist g.nodes
  loads_order : ∀ s, (al.loadsFor s).Sublist g.nodes

section Aliases

variable {accesses : List (StmtId × HeapAccess)} (h : intAccesses p g.nodes = .ok accesses)
include h

theorem mem_touching_iff_interferes : (l, s) ∈ touching r accesses ↔ Interferes p g r l s := by
  rw [mem_touching_iff]
  constructor
  · intro hpair
    obtain ⟨a, b, hl, hlk, hs, hsk, htouch⟩ := hpair
    obtain ⟨hln, hlint, i, hi, ha⟩ := (mem_intAccesses_iff h).1 hl
    obtain ⟨hsn, hsint, j, hj, hb⟩ := (mem_intAccesses_iff h).1 hs
    exact ⟨hln, hsn, i, a.value, j, b.value, hi, hj,
      meets_of_mayTouchSame ha hb hlk hsk htouch, hlint, hsint⟩
  · intro hpair
    obtain ⟨hln, hsn, i, lhs, j, rhs, hi, hj, hmeets, hlint, hsint⟩ := hpair
    obtain ⟨a, b, ha, hb, hlk, hsk, rfl, rfl⟩ := hmeets.exists_heapAccess
    exact ⟨a, b, (mem_intAccesses_iff h).2 ⟨hln, hlint, i, hi, ha⟩, hlk,
      (mem_intAccesses_iff h).2 ⟨hsn, hsint, j, hj, hb⟩, hsk, hmeets.mayTouchSame ha hb⟩

theorem touching_sublist : (touching r accesses).Sublist (g.nodes ×ˢ g.nodes) := by
  have hsub (kind : AccessKind) : ((ofKind kind accesses).map Prod.fst).Sublist g.nodes :=
    (List.filter_sublist.map Prod.fst).trans (intAccesses_sublist h)
  exact pairUp_sublist (hsub .load) (hsub .store)

/-- Maps that hold the pairs that may touch the same place are exact. -/
theorem exact_of_touching (hn : g.nodes.Nodup) {al : Aliases}
    (hstores : al.storesFor = (Aliases.ofPairs (touching r accesses)).storesFor)
    (hloads : al.loadsFor = (Aliases.ofPairs (touching r accesses)).loadsFor) :
    al.Exact p g r := by
  have hstores' := storesFor_sublist hn (touching_sublist (r := r) h)
  have hloads' := loadsFor_sublist hn (touching_sublist (r := r) h)
  rw [← hstores] at hstores'
  rw [← hloads] at hloads'
  exact {
    two_way := fun l s => by
      rw [hstores, hloads, Aliases.mem_storesFor_ofPairs, Aliases.mem_loadsFor_ofPairs]
    complete := fun l s => by
      rw [hstores, Aliases.mem_storesFor_ofPairs, mem_touching_iff_interferes h]
    stores_once := fun l => (hstores' l).nodup hn
    loads_once := fun s => (hloads' s).nodup hn
    stores_order := hstores'
    loads_order := hloads' }

end Aliases

/-- The aliases of a supergraph are complete, exact and found from both sides, whatever the variables
point to. Both maps answer alike when the places are taken one after the other in another order, and
with others at which nothing interferes. -/
theorem exact_aliases (hp : p.Built) (hv : p.Declared) {entries : List MethodId}
    {calls : List (StmtId × MethodId)} (hg : p.supergraph entries calls = .ok g)
    (r : PointsTo.Result) : ∃ t al, accessTable p g = .ok t ∧ aliases p g r = .ok al ∧
      al.Exact p g r ∧
      ∀ places : List Place, places.Nodup →
        (∀ l s, Interferes p g r l s → ∀ k, place? p l = some k → k ∈ places) →
        (Aliases.ofTable r t places).storesFor = al.storesFor ∧
          (Aliases.ofTable r t places).loadsFor = al.loadsFor := by
  have hclosed := hp.layout.supergraph_closed hg
  obtain ⟨accesses, haccesses⟩ := exists_intAccesses hv fun n hn => hclosed.instr hp.layout hn
  obtain ⟨al, hal⟩ := exists_aliases hp.layout hv hclosed r
  obtain ⟨accesses', haccesses', hstores, hloads⟩ := exists_of_aliases hal
  cases haccesses.symm.trans haccesses'
  refine ⟨_, al, accessTable_eq haccesses, hal,
    exact_of_touching haccesses (hclosed.nodup_nodes hp.layout) hstores hloads, ?_⟩
  intro places hplaces hall
  rw [hstores, hloads]
  exact maps_ofTable haccesses hplaces fun l s hq =>
    hall l s ((mem_touching_iff_interferes haccesses).1 hq)

theorem exact_aliases_sample : ∃ g r al,
    Program.sample.supergraph [⟨2⟩] [(⟨12⟩, ⟨0⟩)] = .ok g ∧
      PointsTo.analyze Program.sample .insensitive = .ok r ∧
      aliases Program.sample g r = .ok al ∧ al.Exact Program.sample g r ∧
      al.storesFor ⟨1⟩ = [⟨11⟩] ∧ Interferes Program.sample g r ⟨1⟩ ⟨11⟩ := by
  have hrun : (do
      let g ← Program.sample.supergraph [⟨2⟩] [(⟨12⟩, ⟨0⟩)]
      let r ← PointsTo.analyze Program.sample .insensitive
      let al ← aliases Program.sample g r
      return decide (al.storesFor ⟨1⟩ = [⟨11⟩]) : Outcome Bool) = .ok true := by decide +kernel
  obtain ⟨g, hg, hrun⟩ := Outcome.bind_eq_ok.1 hrun
  obtain ⟨r, hr, hrun⟩ := Outcome.bind_eq_ok.1 hrun
  obtain ⟨al, hal, hrun⟩ := Outcome.bind_eq_ok.1 hrun
  have hstores : al.storesFor ⟨1⟩ = [⟨11⟩] := of_decide_eq_true (Except.ok.inj hrun)
  obtain ⟨-, al', -, hal', hexact, -⟩ :=
    exact_aliases Program.sample_built Program.sample_scoped.declared hg r
  cases hal.symm.trans hal'
  refine ⟨g, r, al, hg, hr, hal, hexact, hstores, (hexact.complete _ _).1 ?_⟩
  rw [hstores]
  exact List.mem_singleton_self _

end ProgramFlow.Interprocedural
