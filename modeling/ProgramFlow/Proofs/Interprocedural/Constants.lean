import ProgramFlow.Proofs.Constants.Transfer
import ProgramFlow.Proofs.Interprocedural.AliasMaps
import ProgramFlow.Proofs.Interprocedural.LeastSolution
/-!
Interprocedural constant propagation finds the least solution of its equations. With aliases, the
equations of a load mention the facts that arrive at the stores that may feed it.
-/
namespace ProgramFlow

namespace Value

theorem mayEqual_mono {x x' y y' : Value} (hx : x ≤ x') (hy : y ≤ y') (h : x.mayEqual y = true) :
    x'.mayEqual y' = true := by
  rw [le_def] at hx hy
  cases x <;> cases x' <;> cases y <;> cases y' <;> grind [mayEqual, merge]

end Value

namespace Interprocedural

open Dataflow (join)

variable {p : Program}

section Links

theorem foldl_set_mono {isInt : VarId → Bool} {f f' : Fact} (h : f ≤ f')
    (l : List (VarId × VarId)) {k k' : Fact} (hk : k ≤ k') :
    l.foldl (fun k e => if isInt e.2 then k.set e.2 (f.get e.1) else k) k ≤
      l.foldl (fun k e => if isInt e.2 then k.set e.2 (f'.get e.1) else k) k' := by
  induction l generalizing k k' with
  | nil => exact hk
  | cons e l ih =>
    rw [List.foldl_cons, List.foldl_cons]
    apply ih
    split
    · exact Fact.set_mono hk (Fact.get_mono e.1 h) e.2
    · exact hk

theorem within_foldl_set {n : Nat} {isInt : VarId → Bool} {f : Fact} {l : List (VarId × VarId)}
    (hl : ∀ e ∈ l, e.2.index < n) {k : Fact} (hk : k.Within n) :
    (l.foldl (fun k e => if isInt e.2 then k.set e.2 (f.get e.1) else k) k).Within n := by
  induction l generalizing k with
  | nil => exact hk
  | cons e l ih =>
    rw [List.foldl_cons]
    refine ih (fun x hx => hl x (.tail _ hx)) ?_
    split
    · exact hk.set (hl e (.head _)) _
    · exact hk

/-- A transfer along a link succeeds, is monotone and mentions declared variables. -/
def Carries (p : Program) (t : Fact → Outcome Fact) : Prop :=
  ∃ f : Fact → Fact, (∀ x, t x = .ok (f x)) ∧ Monotone f ∧
    ∀ x, x.Within p.vars.size → (f x).Within p.vars.size

theorem carries_passArguments (hp : p.Layout) {callee : MethodId} {d : MethodDecl}
    (hd : p.method callee = .ok d) (args : List VarId) :
    Carries p (passArguments p args d.params) := by
  have hvar : ∀ v ∈ d.params, ∃ b, p.isIntVar v = .ok b := by
    intro v hv
    obtain ⟨x, hx, -⟩ := hp.params hd hv
    exact ⟨_, Outcome.map_eq_ok.2 ⟨x, hx, rfl⟩⟩
  choose! isInt hisInt using hvar
  have hmem : ∀ e ∈ args.zip d.params, e.2 ∈ d.params := fun e he => (List.of_mem_zip he).2
  refine ⟨fun f => (args.zip d.params).foldl
    (fun k e => if isInt e.2 then k.set e.2 (f.get e.1) else k) ∅, fun f => ?_, ?_, fun f _ => ?_⟩
  · refine Outcome.foldlM_eq_ok (fun e he k => ?_) ∅
    simp [hisInt _ (hmem e he)]
  · exact fun f f' h => foldl_set_mono h _ le_rfl
  · exact within_foldl_set (fun e he => Program.index_lt_of_isIntVar (hisInt _ (hmem e he)))
      (Fact.within_bot _)

theorem carries_passResult (hv : p.Declared) {site : StmtId} {call : Call}
    (hi : p.instr site = .ok (.invoke call)) (returns : List VarId) :
    Carries p (passResult p returns call.lhs) := by
  cases hlhs : call.lhs with
  | none => exact ⟨fun _ => ∅, fun _ => rfl, monotone_const, fun _ _ => Fact.within_bot _⟩
  | some v =>
    obtain ⟨b, hb⟩ := hv.isIntVar hi (v := v) (.inr hlhs)
    cases b with
    | false =>
      exact ⟨fun _ => ∅, fun _ => by simp [passResult, hb], monotone_const,
        fun _ _ => Fact.within_bot _⟩
    | true =>
      refine ⟨fun f => Fact.set ∅ v (join (returns.map f.get)), fun f => ?_, ?_, fun f _ => ?_⟩
      · have hjoin : returns.foldl (fun x w => x.merge (f.get w)) .undef =
            join (returns.map f.get) :=
          List.foldl_map.symm
        simp [passResult, hb, hjoin]
      · exact fun f f' h => Fact.set_mono le_rfl
          (Dataflow.join_map_mono fun w _ => Fact.get_mono w h) v
      · exact (Fact.within_bot _).set (Program.index_lt_of_isIntVar hb) _

theorem carries_passCall {site : StmtId} {i : Instr} (hi : p.instr site = .ok i) :
    Carries p (passCall p site) := by
  cases hv : i.assigned? with
  | none => exact ⟨id, fun _ => by simp [passCall, hi, hv], monotone_id, fun _ => id⟩
  | some v =>
    exact ⟨fun f => f.set v .undef, fun _ => by simp [passCall, hi, hv],
      fun _ _ h => Fact.set_mono h le_rfl v, fun _ hf => hf.unset v⟩

theorem carries_transferLink (hp : p.Layout) (hv : p.Declared) {g : Supergraph}
    (hg : g.Closed p) {l : Link} (hl : l ∈ g.links) : Carries p (transferLink p l) := by
  obtain ⟨hs, -, hfits⟩ := hg.links l hl
  obtain ⟨kind, source, target⟩ := l
  cases kind with
  | normal => exact ⟨id, fun _ => rfl, monotone_id, fun _ => id⟩
  | callToReturn =>
    obtain ⟨i, hi⟩ := hg.instr hp hs
    exact carries_passCall hi
  | call callee args params =>
    obtain ⟨d, hd, rfl⟩ := hfits
    exact carries_passArguments hp hd args
  | ret site callee returns result =>
    obtain ⟨call, hi, rfl⟩ := hfits
    exact carries_passResult hv hi returns

end Links

section Loads

/-- What a store contributes to a load, given the facts that arrive at both. -/
def contribution (load store : Instr) (f g : Fact) : Value :=
  match storedVar? store with
  | some rhs => if indicesMayMatch load store f g then g.get rhs else .undef
  | none => .undef

theorem indicesMayMatch_mono {load store : Instr} {f f' g g' : Fact} (hf : f ≤ f') (hg : g ≤ g')
    (h : indicesMayMatch load store f g = true) : indicesMayMatch load store f' g' = true := by
  unfold indicesMayMatch at h ⊢
  split
  · exact Value.mayEqual_mono (Fact.get_mono _ hf) (Fact.get_mono _ hg) h
  · rfl

theorem contribution_mono (load store : Instr) {f f' g g' : Fact} (hf : f ≤ f') (hg : g ≤ g') :
    contribution load store f g ≤ contribution load store f' g' := by
  unfold contribution
  split
  · next rhs _ =>
    split
    · next h =>
      rw [if_pos (indicesMayMatch_mono hf hg h)]
      exact Fact.get_mono rhs hg
    · exact Value.undef_le _
  · exact le_rfl

/-- Loads find the stores that find them, and both are nodes of the supergraph. -/
structure Aliases.Fits (p : Program) (g : Supergraph) (a : Aliases) : Prop where
  two_way : ∀ l s, s ∈ a.storesFor l ↔ l ∈ a.loadsFor s
  nodes : ∀ l, ∀ s ∈ a.storesFor l, l ∈ g.nodes ∧ s ∈ g.nodes ∧
    ∃ i rhs, p.instr s = .ok i ∧ storedVar? i = some rhs

theorem storedVar?_of_heapAccess? {i : Instr} {access : HeapAccess}
    (h : heapAccess? i = some access) (hk : access.kind = .store) :
    storedVar? i = some access.value := by
  cases i <;> simp_all [heapAccess?, storedVar?] <;> subst h <;> simp_all

theorem fits_of_aliases {g : Supergraph} {r : PointsTo.Result} {a : Aliases}
    (h : aliases p g r = .ok a) : a.Fits p g := by
  obtain ⟨accesses, haccesses, hstores, hloads⟩ := exists_of_aliases h
  constructor
  · intro l s
    rw [hstores, hloads, Aliases.mem_storesFor_ofPairs, Aliases.mem_loadsFor_ofPairs]
  · intro l s hs
    rw [hstores, Aliases.mem_storesFor_ofPairs] at hs
    obtain ⟨load, store, hl, -, hs, hk, -⟩ := mem_touching_iff.1 hs
    obtain ⟨hsn, -, i, hi, hai⟩ := (mem_intAccesses_iff haccesses).1 hs
    exact ⟨((mem_intAccesses_iff haccesses).1 hl).1, hsn, i, _, hi, storedVar?_of_heapAccess? hai hk⟩

variable {g : Supergraph} {a : Aliases}

/-- What a load reads is the least upper bound of what its stores contribute. -/
theorem loadValue_eq_ok (h : a.Fits p g) (n : StmtId) : ∃ instr : StmtId → Instr,
    (∀ s ∈ a.storesFor n, p.instr s = .ok (instr s)) ∧ ∀ A i f,
      loadValue p a (Problem.arrivals g A) n i f =
        .ok (join ((a.storesFor n).map fun s => contribution i (instr s) f (A s))) := by
  have hinstr : ∀ s ∈ a.storesFor n, ∃ i, p.instr s = .ok i := by
    intro s hs
    obtain ⟨-, -, i, -, hi, -⟩ := h.nodes n s hs
    exact ⟨i, hi⟩
  have : Nonempty Instr := ⟨.nop⟩
  choose! instr hi using hinstr
  refine ⟨instr, hi, fun A i f => ?_⟩
  refine (Outcome.foldlM_eq_ok (g := fun x s => x ⊔ contribution i (instr s) f (A s))
    (fun s hs x => ?_) .undef).trans (congrArg Except.ok List.foldl_map.symm)
  rw [Problem.find?_arrivals A (h.nodes n s hs).2.1]
  obtain ⟨-, -, store, rhs, hstore, hrhs⟩ := h.nodes n s hs
  cases (hi s hs).symm.trans hstore
  simp only [hi s hs, Outcome.ok_bind, Outcome.pure_eq, contribution, hrhs]
  split
  · rfl
  · exact congrArg Except.ok (Value.merge_undef x).symm

end Loads

section Nodes

variable {g : Supergraph} {a : Aliases}

/-- The transfer of a node succeeds whatever arrives elsewhere, is monotone and reads no more than
the stores that may feed the node. -/
def Transfers (p : Program) (g : Supergraph) (a : Option Aliases) (n : StmtId) : Prop :=
  ∃ f : (StmtId → Fact) → Fact,
    (∀ A, transferNode p a (Problem.arrivals g A) n (A n) = .ok (f A)) ∧ Monotone f ∧
    (∀ A, (∀ m, (A m).Within p.vars.size) → (f A).Within p.vars.size) ∧
    ∀ A A', A n = A' n → (∀ m, n ∈ a.elim [] (·.loadsFor m) → A m = A' m) → f A = f A'

theorem transfers_of_local {a : Option Aliases} {n : StmtId} {t : Fact → Fact}
    (ht : ∀ arriving f, transferNode p a arriving n f = .ok (t f)) (hmono : Monotone t)
    (hwithin : ∀ f, f.Within p.vars.size → (t f).Within p.vars.size) : Transfers p g a n :=
  ⟨fun A => t (A n), fun _ => ht _ _, fun _ _ h => hmono (h n), fun _ hA => hwithin _ (hA n),
    fun _ _ h _ => congrArg t h⟩

theorem assigned?_of_loadedVar? {i : Instr} {v : VarId} (h : loadedVar? i = some v) :
    i.assigned? = some v := by
  cases i <;> simp_all [loadedVar?, Instr.assigned?]

theorem not_isInvoke_of_loadedVar? {i : Instr} {v : VarId} (h : loadedVar? i = some v) :
    i.isInvoke = false := by
  cases i <;> simp_all [loadedVar?, Instr.isInvoke, Instr.call?]

/-- A load of an integer merges what its stores contribute. -/
theorem transferNode_load (h : a.Fits p g) {n : StmtId} {i : Instr} {lhs : VarId}
    (hi : p.instr n = .ok i) (hl : loadedVar? i = some lhs) (hv : p.isIntVar lhs = .ok true) :
    ∃ instr : StmtId → Instr, (∀ s ∈ a.storesFor n, p.instr s = .ok (instr s)) ∧ ∀ A,
      transferNode p (some a) (Problem.arrivals g A) n (A n) = .ok ((A n).set lhs
        (join ((a.storesFor n).map fun s => contribution i (instr s) (A n) (A s)))) := by
  obtain ⟨instr, hinstr, hload⟩ := loadValue_eq_ok h n
  refine ⟨instr, hinstr, fun A => ?_⟩
  simp [transferNode, hi, not_isInvoke_of_loadedVar? hl, hl, hv, hload]

theorem transfers_load (h : a.Fits p g) {n : StmtId} {i : Instr} {lhs : VarId}
    (hi : p.instr n = .ok i) (hl : loadedVar? i = some lhs) (hv : p.isIntVar lhs = .ok true) :
    Transfers p g (some a) n := by
  obtain ⟨instr, -, ht⟩ := transferNode_load h hi hl hv
  refine ⟨_, ht, fun A A' hle => ?_, fun A hA => ?_, fun A A' heq hread => ?_⟩
  · exact Fact.set_mono (hle n)
      (Dataflow.join_map_mono fun s _ => contribution_mono i (instr s) (hle n) (hle s)) lhs
  · exact (hA n).set (Program.index_lt_of_isIntVar hv) _
  · have hmap : (a.storesFor n).map (fun s => contribution i (instr s) (A n) (A s)) =
        (a.storesFor n).map fun s => contribution i (instr s) (A' n) (A' s) := by
      apply List.map_congr_left
      intro s hs
      rw [heq, hread s ((h.two_way n s).1 hs)]
    rw [hmap, heq]

theorem transferNode_plain {a : Option Aliases} {n : StmtId} {i : Instr} (hi : p.instr n = .ok i)
    (hinvoke : i.isInvoke = false)
    (hl : ∀ al lhs, a = some al → loadedVar? i = some lhs → p.isIntVar lhs = .ok false)
    (arriving : SortedMap StmtId Fact) (f : Fact) :
    transferNode p a arriving n f = transferPlain p n i f := by
  cases a with
  | none => simp [transferNode, hi, hinvoke]
  | some al =>
    cases hlhs : loadedVar? i with
    | none => simp [transferNode, hi, hinvoke, hlhs]
    | some lhs => simp [transferNode, hi, hinvoke, hlhs, hl al lhs rfl hlhs]

theorem transfers_of_supported (hv : p.Declared) {a : Option Aliases}
    (ha : ∀ al, a = some al → al.Fits p g) {n : StmtId} {i : Instr} (hi : p.instr n = .ok i)
    (hs : ∀ tag, ¬ p.Unsupported n tag) : Transfers p g a n := by
  cases hinvoke : i.isInvoke with
  | true =>
    exact transfers_of_local (t := id) (fun _ _ => by simp [transferNode, hi, hinvoke]) monotone_id
      fun _ => id
  | false =>
    by_cases hload : ∃ al lhs, a = some al ∧ loadedVar? i = some lhs ∧ p.isIntVar lhs = .ok true
    · obtain ⟨al, lhs, rfl, hl, hint⟩ := hload
      exact transfers_load (ha al rfl) hi hl hint
    · obtain ⟨as, has, hassigns⟩ := hv.assignment?_eq_ok hi hs
      have hplain : ∀ al lhs, a = some al → loadedVar? i = some lhs →
          p.isIntVar lhs = .ok false := by
        intro al lhs hal hl
        obtain ⟨b, hb⟩ := hv.isIntVar hi (.inr (assigned?_of_loadedVar? hl))
        cases b with
        | false => exact hb
        | true => exact absurd ⟨al, lhs, hal, hl, hb⟩ hload
      refine transfers_of_local (t := fun f => f.assign (as f)) (fun arriving f => ?_)
        hassigns.assign_mono fun f hf => hassigns.within hf
      rw [transferNode_plain hi hinvoke hplain]
      simp [transferPlain, has]

theorem transferNode_unsupported {a : Option Aliases} {n : StmtId} {tag : String}
    (h : p.Unsupported n tag) (arriving : SortedMap StmtId Fact) (f : Fact) :
    transferNode p a arriving n f = .error (.unsupportedConstruct .constants n tag) := by
  obtain ⟨v, reads, hi, hv⟩ := h
  rw [transferNode_plain hi rfl fun _ _ _ hl => by cases hl]
  simp [transferPlain, Program.assignment?_eq_error hv]

/-- A store passes on what arrives at it. -/
theorem transferNode_store {a : Option Aliases} {n : StmtId} {i : Instr} {rhs : VarId}
    (hi : p.instr n = .ok i) (h : storedVar? i = some rhs) (arriving : SortedMap StmtId Fact)
    (f : Fact) : transferNode p a arriving n f = .ok f := by
  have hassigned : i.assigned? = none := by
    cases i <;> simp_all [storedVar?, Instr.assigned?]
  have hinvoke : i.isInvoke = false := by
    cases i <;> simp_all [storedVar?, Instr.isInvoke, Instr.call?]
  rw [transferNode_plain hi hinvoke fun _ _ _ hl => by
    rw [assigned?_of_loadedVar? hl] at hassigned
    cases hassigned]
  simp [transferPlain, Program.assignment?, hassigned, Fact.assign]

end Nodes

variable {g : Supergraph} {a : Option Aliases}

theorem instr_of_mem_boundaryNodes (hp : p.Layout) (hg : g.Closed p) {n : StmtId}
    (hn : n ∈ Problem.boundaryNodes g) : p.instr n = .ok .entry := by
  obtain ⟨m, hm, c, hc, rfl⟩ := Problem.mem_boundaryNodes.1 hn
  obtain ⟨hmem, -⟩ := Supergraph.of_graph?_eq_some hc
  obtain ⟨d, hd, he, -⟩ := hg.graphs c hmem
  rw [he]
  exact Program.instr_eq_ok.2 ⟨_, hp.entry hd, rfl⟩

theorem parameterFact_of_entry (hp : p.Layout) (hg : g.Closed p) {m : MethodId}
    (hm : m ∈ g.entryMethods) : ∃ b, p.parameterFact m = .ok b ∧ b.Within p.vars.size := by
  obtain ⟨c, hc⟩ := hg.graph?_eq_some hm
  obtain ⟨hmem, rfl⟩ := Supergraph.of_graph?_eq_some hc
  obtain ⟨d, hd, -⟩ := hg.graphs c hmem
  exact hp.parameterFact_eq_ok hd

theorem fits_of_aliasesFor {aware : Bool} {r : Option PointsTo.Result}
    (h : aliasesFor p g aware r = .ok a) {al : Aliases} (ha : a = some al) : al.Fits p g := by
  subst ha
  unfold aliasesFor at h
  split at h
  · split at h
    · obtain ⟨al', hal, he⟩ := Outcome.map_eq_ok.1 h
      cases he
      exact fits_of_aliases hal
    · cases h
  · cases h

/-- A node with readers is a store, which passes facts on, and its readers are nodes. -/
theorem of_mem_readers (ha : ∀ al, a = some al → al.Fits p g) {m n : StmtId}
    (hn : n ∈ (constantPropagation p a).readers m) :
    n ∈ g.nodes ∧ ∀ arriving f, transferNode p a arriving m f = .ok f := by
  cases a with
  | none => exact (List.not_mem_nil hn).elim
  | some al =>
    obtain ⟨hmem, -, i, rhs, hi, hrhs⟩ :=
      (ha al rfl).nodes n m (((ha al rfl).two_way n m).2 hn)
    exact ⟨hmem, transferNode_store hi hrhs⟩

theorem constantPropagation_monotonic (hp : p.Layout) (hv : p.Declared) (hg : g.Closed p)
    (ha : ∀ al, a = some al → al.Fits p g) (hs : ∀ n ∈ g.nodes, ∀ tag, ¬ p.Unsupported n tag) :
    (constantPropagation p a).Monotonic g (Fact.height p.vars.size) where
  forward := rfl
  start_eq := rfl
  merge_eq := fun _ _ => rfl
  bot_within := Fact.within_bot _
  sup_within := Fact.Within.merge
  bound_le := le_rfl
  boundary := fun _ hm => parameterFact_of_entry hp hg hm
  link := fun _ hl => carries_transferLink hp hv hg hl
  node := by
    intro n hn _
    obtain ⟨i, hi⟩ := hg.instr hp hn
    exact transfers_of_supported hv ha hi (hs n hn)
  readers := fun hn => (of_mem_readers ha hn).1
  passes := fun hn => (of_mem_readers ha hn).2

/-- No fact that leaves a load of an integer is stale: the load reads what finally arrives at the
stores whose index may be its own. -/
def Fresh (p : Program) (a : Option Aliases) (g : Supergraph) (t : Dataflow.Table Fact) : Prop :=
  ∀ al n i lhs, a = some al → n ∈ g.nodes → p.instr n = .ok i → loadedVar? i = some lhs →
    p.isIntVar lhs = .ok true → ∃ x y, t.arriving.find? n = some x ∧
      t.leaving.find? n = some (x.set lhs y) ∧
      IsLUB {z | ∃ s ∈ al.storesFor n, ∃ f store rhs, t.arriving.find? s = some f ∧
        p.instr s = .ok store ∧ storedVar? store = some rhs ∧
        indicesMayMatch i store x f = true ∧ f.get rhs = z} y

theorem fresh_of_solves (hp : p.Layout) (hg : g.Closed p)
    (ha : ∀ al, a = some al → al.Fits p g) {t : Dataflow.Table Fact}
    (ht : (constantPropagation p a).Solves g t) : Fresh p a g t := by
  rintro al n i lhs rfl hn hi hl hv
  have hnb : n ∉ Problem.boundaryNodes g := by
    intro hnb
    cases hi.symm.trans (instr_of_mem_boundaryNodes hp hg hnb)
    cases hl
  obtain ⟨x, y, hx, hy, hleave⟩ := ht.leaving n hn hnb
  obtain ⟨instr, hinstr, htransfer⟩ := transferNode_load (ha al rfl) hi hl hv
  rw [Dataflow.Table.find?_arriving ht.covers hn] at hx
  cases hx
  rw [Problem.arriving_eq ht.covers] at hy
  have hval := Except.ok.inj ((htransfer t.facts.arriving).symm.trans hy)
  refine ⟨_, _, Dataflow.Table.find?_arriving ht.covers hn, hval ▸ hleave, ?_⟩
  have hlub := Dataflow.isLUB_join ((al.storesFor n).map fun s =>
    contribution i (instr s) (t.facts.arriving n) (t.facts.arriving s))
  have hfind : ∀ s ∈ al.storesFor n, t.arriving.find? s = some (t.facts.arriving s) := fun s hs =>
    Dataflow.Table.find?_arriving ht.covers ((ha al rfl).nodes n s hs).2.1
  refine ⟨?_, fun b hb => hlub.2 ?_⟩
  · rintro z ⟨s, hs, f, store, rhs, hf, hstore, hrhs, hmatch, rfl⟩
    cases hf.symm.trans (hfind s hs)
    cases hstore.symm.trans (hinstr s hs)
    refine hlub.1 (List.mem_map.2 ⟨s, hs, ?_⟩)
    simp only [contribution, hrhs, hmatch, if_true]
  · intro z hz
    obtain ⟨s, hs, rfl⟩ := List.mem_map.1 hz
    obtain ⟨-, -, store, rhs, hstore, hrhs⟩ := (ha al rfl).nodes n s hs
    cases hstore.symm.trans (hinstr s hs)
    simp only [contribution, hrhs]
    split
    · next hmatch => exact hb ⟨s, hs, _, _, rhs, hfind s hs, hstore, hrhs, hmatch, rfl⟩
    · exact Value.undef_le b

/-- The solver stops at the first statement that constant propagation does not support. -/
theorem solve_eq_unsupported (hl : p.Layout) (hv : p.Declared) (hg : g.Closed p)
    (ha : ∀ al, a = some al → al.Fits p g) {l l' : List StmtId} {n : StmtId} {tag : String}
    (hnodes : g.nodes = l ++ n :: l') (hbefore : ∀ m ∈ l, ∀ tag, ¬ p.Unsupported m tag)
    (hn : p.Unsupported n tag) :
    (constantPropagation p a).solve g = .error (.unsupportedConstruct .constants n tag) := by
  refine Problem.solve_eq_error hl hg rfl (fun m hm => ?_) (fun lk hlk x => ?_) hnodes
    (fun m hm _ A => ?_) (fun hnb => ?_) (transferNode_unsupported hn)
  · exact (parameterFact_of_entry hl hg hm).imp fun _ => And.left
  · obtain ⟨f, hf, -⟩ := carries_transferLink hl hv hg hlk
    exact ⟨f x, hf x⟩
  · obtain ⟨i, hi⟩ := hg.instr hl (hnodes ▸ List.mem_append_left _ hm)
    obtain ⟨f, hf, -⟩ := transfers_of_supported hv ha hi (hbefore m hm)
    exact ⟨f A, hf A⟩
  · obtain ⟨v, reads, hi, -⟩ := hn
    cases hi.symm.trans (instr_of_mem_boundaryNodes hl hg hnb)

variable {calls : List (StmtId × MethodId)} {entries : List MethodId} {aware : Bool}
  {r : Option PointsTo.Result}

/-- With or without aliases the solver finds the least solution, in which no load is stale, or it
names the first statement of the supergraph that constant propagation does not support. -/
theorem solve_least_or_unsupported (hp : p.Built) (hv : p.Declared)
    (hg : p.supergraph entries calls = .ok g) (ha : aliasesFor p g aware r = .ok a) :
    ((∀ n ∈ g.nodes, ∀ tag, ¬ p.Unsupported n tag) → ∃ t,
      (constantPropagation p a).solve g = .ok t ∧
        IsLeast {t | (constantPropagation p a).Solves g t} t ∧ Fresh p a g t) ∧
    ∀ l n l' tag, g.nodes = l ++ n :: l' → (∀ m ∈ l, ∀ tag, ¬ p.Unsupported m tag) →
      p.Unsupported n tag → (constantPropagation p a).solve g =
        .error (.unsupportedConstruct .constants n tag) := by
  have hl := hp.layout
  have hclosed := hl.supergraph_closed hg
  have hfits : ∀ al, a = some al → al.Fits p g := fun al => fits_of_aliasesFor ha
  refine ⟨fun hs => ?_, fun l n l' tag => solve_eq_unsupported hl hv hclosed hfits⟩
  have hmono := constantPropagation_monotonic hl hv hclosed hfits hs
  obtain ⟨t, ht, hleast⟩ := hmono.solve_eq_ok hl hclosed
  exact ⟨t, ht, hleast, fresh_of_solves hl hclosed hfits hleast.1⟩

theorem solve_least_or_unsupported_sample :
    (∃ g r a t, Program.sample.supergraph [⟨2⟩] [(⟨12⟩, ⟨0⟩)] = .ok g ∧
      PointsTo.analyze Program.sample .insensitive = .ok r ∧
      aliasesFor Program.sample g true (some r) = .ok a ∧
      (constantPropagation Program.sample a).solve g = .ok t ∧ Fresh Program.sample a g t) ∧
    ∃ g, Program.sample.supergraph [⟨1⟩] [] = .ok g ∧
      (constantPropagation Program.sample none).solve g =
        .error (.unsupportedConstruct .constants ⟨6⟩ "dynamic") := by
  have hp := Program.sample_built
  have hv := Program.sample_scoped.declared
  constructor
  · have hrun : (do
        let g ← Program.sample.supergraph [⟨2⟩] [(⟨12⟩, ⟨0⟩)]
        let r ← PointsTo.analyze Program.sample .insensitive
        let _ ← aliasesFor Program.sample g true (some r)
        return decide (⟨6⟩ ∉ g.nodes) : Outcome Bool) = .ok true := by decide +kernel
    obtain ⟨g, hg, hrun⟩ := Outcome.bind_eq_ok.1 hrun
    obtain ⟨r, hr, hrun⟩ := Outcome.bind_eq_ok.1 hrun
    obtain ⟨a, ha, hrun⟩ := Outcome.bind_eq_ok.1 hrun
    have hn : ⟨6⟩ ∉ g.nodes := of_decide_eq_true (Except.ok.inj hrun)
    obtain ⟨t, ht, -, hfresh⟩ := (solve_least_or_unsupported hp hv hg ha).1 fun n hmem =>
      Program.sample_supported fun he => hn (he ▸ hmem)
    exact ⟨g, r, a, t, hg, hr, ha, ht, hfresh⟩
  · have hnodes : (fun g : Supergraph => g.nodes) <$> Program.sample.supergraph [⟨1⟩] [] =
        .ok ([⟨4⟩, ⟨5⟩] ++ ⟨6⟩ :: [⟨7⟩]) := by decide +kernel
    obtain ⟨g, hg, hnodes⟩ := Outcome.map_eq_ok.1 hnodes
    have hbefore : ∀ m ∈ [(⟨4⟩ : StmtId), ⟨5⟩], ∀ tag, ¬ Program.sample.Unsupported m tag := by
      intro m hm
      apply Program.sample_supported
      intro he
      subst he
      revert hm
      decide
    have ha : aliasesFor Program.sample g false none = .ok none := rfl
    exact ⟨g, hg, (solve_least_or_unsupported hp hv hg ha).2 _ _ _ _ hnodes hbefore
      ⟨_, _, rfl, rfl⟩⟩

end Interprocedural

end ProgramFlow
