import Mathlib.Data.Finset.Prod
import Mathlib.Data.Set.Card
import Mathlib.Tactic.Ring
import ProgramFlow.Proofs.PointsTo.Balance
import ProgramFlow.Proofs.Program.Grounded
/-!
There are finitely many judgements that the analysis can come to: contexts have a bounded depth,
and everything else that such a judgement speaks of is in one of the tables of the program. So the
facts that a state records are bounded as well.
-/
namespace ProgramFlow

theorem fetch_lt {k : Kind} {α : Type} {table : Array α} {id : Id k} {x : α}
    (h : fetch table id = .ok x) : id.index < table.size :=
  (Array.getElem?_eq_some_iff.1 (fetch_eq_ok_iff.1 h)).1

namespace Program

/-- A bound of all numbers in judgements about the program. -/
def extent (p : Program) : Nat :=
  p.classes.size + p.fields.size + p.methods.size + p.vars.size + p.stmts.size + 4

variable {p : Program}

theorem method_lt_extent {m : MethodId} {d : MethodDecl} (h : p.method m = .ok d) :
    m.index < p.extent := by
  have := fetch_lt h
  unfold extent
  omega

theorem var_lt_extent {v : VarId} {x : VarDecl} (h : p.var v = .ok x) : v.index < p.extent := by
  have := fetch_lt h
  unfold extent
  omega

theorem four_le_extent (p : Program) : 4 ≤ p.extent := Nat.le_add_left ..

theorem instr_lt_extent {s : StmtId} {i : Instr} (h : p.instr s = .ok i) : s.index < p.extent := by
  obtain ⟨x, hx, -⟩ := instr_eq_ok.1 h
  have := fetch_lt hx
  unfold extent
  omega

end Program

namespace PointsTo

/-! ## Lists of bounded length -/

section

variable {α : Type} [DecidableEq α] (A : Finset α)

/-- The lists over an alphabet that are not longer than a bound. -/
def listsUpTo : Nat → Finset (List α)
  | 0 => {[]}
  | n + 1 => insert [] ((A ×ˢ listsUpTo n).image fun x => x.1 :: x.2)

variable {A}

theorem mem_listsUpTo {n : Nat} {l : List α} :
    l ∈ listsUpTo A n ↔ l.length ≤ n ∧ ∀ x ∈ l, x ∈ A := by
  induction n generalizing l with
  | zero =>
    rw [listsUpTo, Finset.mem_singleton, Nat.le_zero, List.length_eq_zero_iff]
    exact ⟨fun h => ⟨h, by simp [h]⟩, And.left⟩
  | succ n ih =>
    cases l with
    | nil => simp [listsUpTo]
    | cons a l => simp [listsUpTo, ih, and_left_comm]

theorem card_listsUpTo_le (n : Nat) : (listsUpTo A n).card ≤ (A.card + 1) ^ n := by
  induction n with
  | zero => simp [listsUpTo]
  | succ n ih =>
    have himage : ((A ×ˢ listsUpTo A n).image fun x => x.1 :: x.2).card ≤
        A.card * (A.card + 1) ^ n := by
      refine Finset.card_image_le.trans ?_
      rw [Finset.card_product]
      exact Nat.mul_le_mul_left _ ih
    have hpos : 1 ≤ (A.card + 1) ^ n := Nat.one_le_pow _ _ (Nat.succ_pos _)
    calc (listsUpTo A (n + 1)).card ≤ A.card * (A.card + 1) ^ n + 1 :=
          (Finset.card_insert_le _ _).trans (Nat.succ_le_succ himage)
      _ ≤ A.card * (A.card + 1) ^ n + (A.card + 1) ^ n := Nat.add_le_add_left hpos _
      _ = (A.card + 1) ^ (n + 1) := by rw [Nat.pow_succ, Nat.mul_succ, Nat.mul_comm]

end

/-! ## The numbers and contexts in a judgement -/

def Mark.index : Mark → Nat
  | callSite s | object s => s.index
  | type c => c.index

def marksBelow (n : Nat) : Finset Mark :=
  (Finset.range n).image (.callSite ⟨·⟩) ∪ (Finset.range n).image (.object ⟨·⟩) ∪
    (Finset.range n).image (.type ⟨·⟩)

theorem mem_marksBelow {n : Nat} {x : Mark} : x ∈ marksBelow n ↔ x.index < n := by
  cases x <;> simp [marksBelow, Mark.index, Id.ext_iff]

theorem card_marksBelow_le (n : Nat) : (marksBelow n).card ≤ 3 * n := by
  have himage : ∀ f : Nat → Mark, ((Finset.range n).image f).card ≤ n := fun f =>
    Finset.card_image_le.trans (Finset.card_range n).le
  have h₁ := Finset.card_union_le ((Finset.range n).image (Mark.callSite ⟨·⟩))
    ((Finset.range n).image (.object ⟨·⟩))
  have h₂ := Finset.card_union_le ((Finset.range n).image (Mark.callSite ⟨·⟩) ∪
    (Finset.range n).image (.object ⟨·⟩)) ((Finset.range n).image (.type ⟨·⟩))
  have hc := himage (.callSite ⟨·⟩)
  have ho := himage (.object ⟨·⟩)
  have ht := himage (.type ⟨·⟩)
  unfold marksBelow
  omega

def Slot.numbers : Slot → List Nat
  | .var _ v => [0, v.index, 0]
  | .staticField f => [1, f.index, 0]
  | .instanceField l f => [2, f.index, l.site.index]
  | .arrayElement l => [3, 0, l.site.index]

def Slot.trails : Slot → List Trail
  | .var t _ => [t]
  | .staticField _ => []
  | .instanceField l _ | .arrayElement l => [l.trail]

def Judgement.numbers : Judgement → List Nat
  | .reachable _ m => [0, m.index]
  | .pointsTo a l => 1 :: a.numbers ++ [l.site.index]
  | .flow a b => 2 :: a.numbers ++ b.numbers
  | .call i => [3, callKindCode i.kind, i.site.index, i.caller.index, i.callee.index]

def Judgement.trails : Judgement → List Trail
  | .reachable t _ => [t]
  | .pointsTo a l => a.trails ++ [l.trail]
  | .flow a b => a.trails ++ b.trails
  | .call i => [i.callerTrail, i.calleeTrail]

theorem callKindCode_injective : Function.Injective callKindCode := by
  intro k l h
  cases k <;> cases l <;> first | rfl | cases h

theorem Location.eq_iff_index {l l' : Location} :
    l = l' ↔ l.site.index = l'.site.index ∧ l.trail = l'.trail := by
  obtain ⟨t, ⟨i⟩⟩ := l
  obtain ⟨t', ⟨i'⟩⟩ := l'
  simp [and_comm]

/-- The numbers and contexts of a slot tell where they end. -/
theorem Slot.eq_of_append {a b : Slot} {r r' : List Nat} {u u' : List Trail}
    (hn : a.numbers ++ r = b.numbers ++ r') (ht : a.trails ++ u = b.trails ++ u') :
    a = b ∧ r = r' ∧ u = u' := by
  cases a <;> cases b <;> simp_all [numbers, trails, Id.ext_iff, Location.eq_iff_index]

/-- A judgement is its numbers and contexts. -/
theorem Judgement.eq_of_numbers {J J' : Judgement} (hn : J.numbers = J'.numbers)
    (ht : J.trails = J'.trails) : J = J' := by
  cases J with
  | reachable t m => cases J' <;> simp_all [numbers, trails, Id.ext_iff]
  | pointsTo a l =>
    cases J' with
    | pointsTo b l' =>
      simp only [numbers, trails, List.cons_append, List.cons.injEq, true_and] at hn ht
      obtain ⟨rfl, hs, ht⟩ := Slot.eq_of_append hn ht
      have hl : l = l' := Location.eq_iff_index.2 ⟨by simpa using hs, by simpa using ht⟩
      rw [hl]
    | _ => simp [numbers] at hn
  | flow a b =>
    cases J' with
    | flow a' b' =>
      simp only [numbers, trails, List.cons_append, List.cons.injEq, true_and] at hn ht
      obtain ⟨rfl, hn, ht⟩ := Slot.eq_of_append hn ht
      have hn : b.numbers ++ [] = b'.numbers ++ [] := by rw [hn]
      have ht : b.trails ++ [] = b'.trails ++ [] := by rw [ht]
      rw [(Slot.eq_of_append hn ht).1]
    | _ => simp [numbers] at hn
  | call i =>
    cases J' with
    | call i' =>
      obtain ⟨k, ⟨s⟩, ⟨m⟩, t, ⟨n⟩, u⟩ := i
      obtain ⟨k', ⟨s'⟩, ⟨m'⟩, t', ⟨n'⟩, u'⟩ := i'
      simp_all [numbers, trails, callKindCode_injective.eq_iff]
    | _ => simp [numbers] at hn

/-! ## Proper judgements -/

section

variable (n d : Nat)

def Shallow (t : Trail) : Prop := t.length ≤ d ∧ ∀ x ∈ t, x.index < n

def Location.Bounded (l : Location) : Prop := l.site.index < n ∧ Shallow n d l.trail

def Slot.Bounded (a : Slot) : Prop := (∀ x ∈ a.numbers, x < n) ∧ ∀ t ∈ a.trails, Shallow n d t

def Judgement.Bounded (J : Judgement) : Prop :=
  (∀ x ∈ J.numbers, x < n) ∧ ∀ t ∈ J.trails, Shallow n d t

end

section

variable {n d : Nat} (hn : 4 ≤ n) {t : Trail} {m : MethodId} {v : VarId} {f : FieldId}
  {l : Location} {a b : Slot} {i : Invocation}
include hn

theorem Slot.bounded_var : (Slot.var t v).Bounded n d ↔ v.index < n ∧ Shallow n d t := by
  have : 0 < n := by omega
  simp [Bounded, numbers, trails, this]

theorem Slot.bounded_staticField : (Slot.staticField f).Bounded n d ↔ f.index < n := by
  have : 0 < n := by omega
  have : 1 < n := by omega
  simp [Bounded, numbers, trails, *]

theorem Slot.bounded_instanceField :
    (Slot.instanceField l f).Bounded n d ↔ f.index < n ∧ l.Bounded n d := by
  have : 2 < n := by omega
  simp [Bounded, Location.Bounded, numbers, trails, this, and_assoc]

theorem Slot.bounded_arrayElement : (Slot.arrayElement l).Bounded n d ↔ l.Bounded n d := by
  have : 0 < n := by omega
  have : 3 < n := by omega
  simp [Bounded, Location.Bounded, numbers, trails, *]

theorem Judgement.bounded_reachable :
    (Judgement.reachable t m).Bounded n d ↔ m.index < n ∧ Shallow n d t := by
  have : 0 < n := by omega
  simp [Bounded, numbers, trails, this]

theorem Judgement.bounded_pointsTo :
    (Judgement.pointsTo a l).Bounded n d ↔ a.Bounded n d ∧ l.Bounded n d := by
  have : 1 < n := by omega
  simp only [Bounded, Slot.Bounded, Location.Bounded, numbers, trails, List.forall_mem_append,
    List.forall_mem_cons, List.cons_append, this, true_and]
  tauto

theorem Judgement.bounded_flow :
    (Judgement.flow a b).Bounded n d ↔ a.Bounded n d ∧ b.Bounded n d := by
  have : 2 < n := by omega
  simp only [Bounded, Slot.Bounded, numbers, trails, List.forall_mem_append, List.forall_mem_cons,
    List.cons_append, this, true_and]
  tauto

theorem Judgement.bounded_call : (Judgement.call i).Bounded n d ↔
    (i.site.index < n ∧ i.caller.index < n ∧ i.callee.index < n) ∧
      Shallow n d i.callerTrail ∧ Shallow n d i.calleeTrail := by
  have : 3 < n := by omega
  have hkind : callKindCode i.kind < n := by cases i.kind <;> simp [callKindCode] <;> omega
  simp [Bounded, numbers, trails, this, hkind]

end

section

variable {p : Program} {σ : Sensitivity} {n : Nat} {t : Trail}

theorem shallow_nil (d : Nat) : Shallow n d [] := ⟨Nat.zero_le _, by simp⟩

theorem shallow_takeLast {k d : Nat} (hk : k ≤ d) (h : ∀ x ∈ t, x.index < n) :
    Shallow n d (takeLast k t) := by
  refine ⟨?_, fun x hx => h x ((takeLast_suffix k t).mem hx)⟩
  rw [length_takeLast]
  omega

theorem Shallow.concat (h : Shallow n σ.depth t) {x : Mark} (hx : x.index < n) :
    ∀ y ∈ t ++ [x], y.index < n := by
  simpa [or_imp, forall_and] using ⟨h.2, hx⟩

theorem Shallow.staticTrail (h : Shallow n σ.depth t) {s : StmtId} (hs : s.index < n) :
    Shallow n σ.depth (σ.staticTrail t s) := by
  cases σ with
  | insensitive => exact shallow_nil _
  | callSite k => exact shallow_takeLast (Nat.le_refl k) (h.concat hs)
  | object k | type k => exact h

theorem Shallow.instanceTrail (h : Shallow n σ.depth t) {s : StmtId} (hs : s.index < n)
    {l : Location} (hl : Shallow n σ.depth l.trail) (hsite : l.site.index < n) {c : ClassId}
    (hc : c.index < n) : Shallow n σ.depth (σ.instanceTrail t s l c) := by
  cases σ with
  | insensitive => exact shallow_nil _
  | callSite k => exact shallow_takeLast (Nat.le_refl k) (h.concat hs)
  | object k => exact shallow_takeLast (Nat.le_refl k) (hl.concat hsite)
  | type k => exact shallow_takeLast (Nat.le_refl k) (hl.concat hc)

theorem Shallow.heapTrail (h : Shallow n σ.depth t) : Shallow n σ.depth (σ.heapTrail t) := by
  cases σ with
  | insensitive => exact shallow_nil _
  | callSite k | object k | type k => exact shallow_takeLast (Nat.sub_le k 1) h.2

end

section

variable {p : Program} {σ : Sensitivity} (hd : p.Declared) (hg : p.Grounded) {t : Trail}
  {m : MethodId} {s : StmtId} {i : Instr} {b : VarId} {l : Location} {J J' : Judgement}

theorem var_of_contains (hd : p.Declared) (hi : p.Contains m s i) {v : VarId}
    (hv : v ∈ i.uses ∨ i.assigned? = some v) : ∃ x, p.var v = .ok x := by
  obtain ⟨d, -, -, hi⟩ := hi
  exact hd s i hi v hv

theorem var_lt_of_contains (hd : p.Declared) (hi : p.Contains m s i) {v : VarId}
    (hv : v ∈ i.uses ∨ i.assigned? = some v) : v.index < p.extent := by
  obtain ⟨x, hx⟩ := var_of_contains hd hi hv
  exact Program.var_lt_extent hx

theorem field_lt_of_contains (hg : p.Grounded) (hi : p.Contains m s i) {f : FieldId}
    (hf : i.field? = some f) : f.index < p.extent := by
  obtain ⟨d, hd, hb, hi⟩ := hi
  have := hg.field_lt hi hf
  unfold Program.extent
  omega

theorem class_lt_of_allocates (hg : p.Grounded) {o : Obj} (ho : p.Allocates o) :
    o.owner.index < p.extent := by
  obtain ⟨d, lhs, hd, howner, -⟩ := ho
  have := hg.owner_lt hd
  rw [howner] at this
  unfold Program.extent
  omega

theorem method_lt_of_resolve {receiver : Option ClassId} {call : Call} {callee : MethodId}
    (h : p.resolve receiver call = .ok (some callee)) : callee.index < p.extent := by
  obtain ⟨d, hd, -⟩ := Program.method_of_resolve h
  exact Program.method_lt_extent hd

include hd hg

theorem Immediate.bounded (ht : Shallow p.extent σ.depth t) (hi : p.Contains m s i)
    (h : Immediate p σ t m s i J) : J.Bounded p.extent σ.depth := by
  have hn := p.four_le_extent
  have hvar : ∀ v, v ∈ i.uses ∨ i.assigned? = some v →
      (Slot.var t v).Bounded p.extent σ.depth := fun v hv =>
    (Slot.bounded_var hn).2 ⟨var_lt_of_contains hd hi hv, ht⟩
  obtain ⟨d, hdecl, -, hinstr⟩ := id hi
  have hsite := Program.instr_lt_extent hinstr
  cases h with
  | new =>
    exact (Judgement.bounded_pointsTo hn).2 ⟨hvar _ (.inr rfl), hsite, ht.heapTrail⟩
  | copy => exact (Judgement.bounded_flow hn).2 ⟨hvar _ (.inl (.head _)), hvar _ (.inr rfl)⟩
  | cast => exact (Judgement.bounded_flow hn).2 ⟨hvar _ (.inl (.head _)), hvar _ (.inr rfl)⟩
  | load =>
    exact (Judgement.bounded_flow hn).2
      ⟨(Slot.bounded_staticField hn).2 (field_lt_of_contains hg hi rfl), hvar _ (.inr rfl)⟩
  | store =>
    exact (Judgement.bounded_flow hn).2
      ⟨hvar _ (.inl (.head _)), (Slot.bounded_staticField hn).2 (field_lt_of_contains hg hi rfl)⟩
  | invoke hk hc =>
    exact (Judgement.bounded_call hn).2 ⟨⟨hsite, Program.method_lt_extent hdecl,
      method_lt_of_resolve hc⟩, ht, ht.staticTrail hsite⟩

theorem PerObject.bounded (hl : p.Layout) (ht : Shallow p.extent σ.depth t)
    (hi : p.Contains m s i) (hloc : l.Bounded p.extent σ.depth) (h : PerObject p σ t m s l b i J) :
    J.Bounded p.extent σ.depth := by
  have hn := p.four_le_extent
  have hvar : ∀ v, v ∈ i.uses ∨ i.assigned? = some v →
      (Slot.var t v).Bounded p.extent σ.depth := fun v hv =>
    (Slot.bounded_var hn).2 ⟨var_lt_of_contains hd hi hv, ht⟩
  obtain ⟨d, hdecl, -, hinstr⟩ := id hi
  have hsite := Program.instr_lt_extent hinstr
  have htrail : ∀ {o : Obj}, p.Allocates o →
      Shallow p.extent σ.depth (σ.instanceTrail t s l o.owner) := fun ho =>
    ht.instanceTrail hsite hloc.2 hloc.1 (class_lt_of_allocates hg ho)
  cases h with
  | load =>
    exact (Judgement.bounded_flow hn).2 ⟨(Slot.bounded_instanceField hn).2
      ⟨field_lt_of_contains hg hi rfl, hloc⟩, hvar _ (.inr rfl)⟩
  | store =>
    exact (Judgement.bounded_flow hn).2 ⟨hvar _ (.inl (.tail _ (.head _))),
      (Slot.bounded_instanceField hn).2 ⟨field_lt_of_contains hg hi rfl, hloc⟩⟩
  | loadElement =>
    exact (Judgement.bounded_flow hn).2 ⟨(Slot.bounded_arrayElement hn).2 hloc, hvar _ (.inr rfl)⟩
  | storeElement =>
    exact (Judgement.bounded_flow hn).2 ⟨hvar _ (.inl (.tail _ (.tail _ (.head _)))),
      (Slot.bounded_arrayElement hn).2 hloc⟩
  | invoke hr ho hol hc =>
    exact (Judgement.bounded_call hn).2 ⟨⟨hsite, Program.method_lt_extent hdecl,
      method_lt_of_resolve hc⟩, ht, htrail ho⟩
  | receiver hr ho hol hc hd' hthis =>
    obtain ⟨x, hx, -⟩ := hl.receiver hd' hthis
    exact (Judgement.bounded_pointsTo hn).2
      ⟨(Slot.bounded_var hn).2 ⟨Program.var_lt_extent hx, htrail ho⟩, hloc⟩

omit hg in
theorem Linked.bounded (hl : p.Layout) {i : Invocation}
    (hi : (Judgement.call i).Bounded p.extent σ.depth) (h : Linked p i J) :
    J.Bounded p.extent σ.depth := by
  have hn := p.four_le_extent
  obtain ⟨⟨hsite, hcaller, hcallee⟩, ht, ht'⟩ := (Judgement.bounded_call hn).1 hi
  cases h with
  | reachable => exact (Judgement.bounded_reachable hn).2 ⟨hcallee, ht'⟩
  | argument hinstr hdecl ha =>
    obtain ⟨_, hinstr'⟩ := hl.contains hinstr rfl
    obtain ⟨x, hx, -⟩ := hl.params hdecl (List.of_mem_zip ha).2
    have harg := var_lt_of_contains hd hinstr'
      (.inl (List.mem_append_right _ (List.of_mem_zip ha).1))
    exact (Judgement.bounded_flow hn).2 ⟨(Slot.bounded_var hn).2 ⟨harg, ht⟩,
      (Slot.bounded_var hn).2 ⟨Program.var_lt_extent hx, ht'⟩⟩
  | result hinstr hdecl hlhs hv =>
    obtain ⟨_, hinstr'⟩ := hl.contains hinstr rfl
    obtain ⟨s, hb, hret⟩ := (hl.returns hdecl).1 hv
    have hret := var_lt_of_contains hd ⟨_, hdecl, hb, hret⟩ (.inl (.head _))
    exact (Judgement.bounded_flow hn).2 ⟨(Slot.bounded_var hn).2 ⟨hret, ht'⟩,
      (Slot.bounded_var hn).2 ⟨var_lt_of_contains hd hinstr' (.inr hlhs), ht⟩⟩

end

/-- Where the objects of the slot arrive is declared. -/
def Slot.Declared (p : Program) : Slot → Prop
  | .var _ v => ∃ x, p.var v = .ok x
  | _ => True

/-- The variables and methods that the judgement makes the analysis look up are declared. -/
def Judgement.Declared (p : Program) : Judgement → Prop
  | .reachable _ m => ∃ d, p.method m = .ok d
  | .pointsTo a _ => a.Declared p
  | .flow _ b => b.Declared p
  | .call i => ∃ d, p.method i.callee = .ok d

/-- The judgement speaks of what the program declares, in contexts of bounded depth. -/
def Judgement.Proper (p : Program) (σ : Sensitivity) (J : Judgement) : Prop :=
  J.Bounded p.extent σ.depth ∧ J.Declared p

section

variable {p : Program} {σ : Sensitivity} {t : Trail} {m : MethodId} {s : StmtId} {i : Instr}
  {b : VarId} {l : Location} {J J' : Judgement} {D : Judgement → Prop}

theorem Immediate.declared (hd : p.Declared) (hi : p.Contains m s i)
    (h : Immediate p σ t m s i J) : J.Declared p := by
  cases h with
  | new => exact var_of_contains hd hi (.inr rfl)
  | copy => exact var_of_contains hd hi (.inr rfl)
  | cast => exact var_of_contains hd hi (.inr rfl)
  | load => exact var_of_contains hd hi (.inr rfl)
  | store => trivial
  | invoke _ hc =>
    obtain ⟨d, hdecl, -⟩ := Program.method_of_resolve hc
    exact ⟨d, hdecl⟩

theorem PerObject.declared (hl : p.Layout) (hd : p.Declared) (hi : p.Contains m s i)
    (h : PerObject p σ t m s l b i J) : J.Declared p := by
  cases h with
  | load => exact var_of_contains hd hi (.inr rfl)
  | store => trivial
  | loadElement => exact var_of_contains hd hi (.inr rfl)
  | storeElement => trivial
  | invoke _ _ _ hc =>
    obtain ⟨d, hdecl, -⟩ := Program.method_of_resolve hc
    exact ⟨d, hdecl⟩
  | receiver _ _ _ _ hdecl hthis =>
    obtain ⟨x, hx, -⟩ := hl.receiver hdecl hthis
    exact ⟨x, hx⟩

theorem Linked.declared (hl : p.Layout) (hd : p.Declared) {i : Invocation}
    (hi : (Judgement.call i).Declared p) (h : Linked p i J) : J.Declared p := by
  cases h with
  | reachable => exact hi
  | argument _ hdecl ha =>
    obtain ⟨x, hx, -⟩ := hl.params hdecl (List.of_mem_zip ha).2
    exact ⟨x, hx⟩
  | result hinstr _ hlhs _ =>
    obtain ⟨_, hinstr'⟩ := hl.contains hinstr rfl
    exact var_of_contains hd hinstr' (.inr hlhs)

section

variable (hl : p.Layout) (hd : p.Declared) (hg : p.Grounded)
include hl hd hg

theorem Judgement.Proper.consequence (hJ : J.Proper p σ) (h : Consequence p σ J J') :
    J'.Proper p σ := by
  have hn := p.four_le_extent
  obtain ⟨hbounded, hdeclared⟩ := hJ
  cases h with
  | immediate hi h =>
    have ht := ((Judgement.bounded_reachable hn).1 hbounded).2
    exact ⟨h.bounded hd hg ht hi, h.declared hd hi⟩
  | perObject hi h =>
    obtain ⟨hslot, hloc⟩ := (Judgement.bounded_pointsTo hn).1 hbounded
    have ht := ((Slot.bounded_var hn).1 hslot).2
    exact ⟨h.bounded hd hg hl ht hi hloc, h.declared hl hd hi⟩
  | linked h => exact ⟨h.bounded hd hl hbounded, h.declared hl hd hdeclared⟩

/-- The rules lead from proper judgements to proper ones. -/
theorem saturated_proper : Saturated p σ (Judgement.Proper p σ) where
  main hm := by
    obtain ⟨d, hdecl⟩ := hg.exists_main hm
    have hlt := Program.method_lt_extent hdecl
    exact ⟨(Judgement.bounded_reachable p.four_le_extent).2 ⟨hlt, shallow_nil _⟩, d, hdecl⟩
  consequence hJ h := hJ.consequence hl hd hg h
  carried hf ha := by
    have hn := p.four_le_extent
    exact ⟨(Judgement.bounded_pointsTo hn).2 ⟨((Judgement.bounded_flow hn).1 hf.1).2,
      ((Judgement.bounded_pointsTo hn).1 ha.1).2⟩, hf.2⟩

end

/-- A class of proper judgements that the rules do not leave. -/
structure Tame (p : Program) (σ : Sensitivity) (D : Judgement → Prop) : Prop extends
    Saturated p σ D where
  proper : ∀ {J}, D J → J.Proper p σ

theorem tame_proper (hl : p.Layout) (hd : p.Declared) (hg : p.Grounded) :
    Tame p σ (Judgement.Proper p σ) :=
  ⟨saturated_proper hl hd hg, id⟩

theorem Derivable.tame (hl : p.Layout) (hs : p.Scoped) (hg : p.Grounded) :
    Tame p σ (Derivable p σ) :=
  ⟨Derivable.saturated hl hs, (saturated_proper hl hs.declared hg).of_derivable⟩

end

/-! ## The number of facts -/

def boundedCodes (n d : Nat) : Finset (List Nat × List Trail) :=
  listsUpTo (Finset.range n) 7 ×ˢ listsUpTo (listsUpTo (marksBelow n) d) 2

theorem card_boundedCodes_le (n d : Nat) :
    (boundedCodes n d).card ≤ (n + 1) ^ 7 * ((3 * n + 1) ^ d + 1) ^ 2 := by
  have hmarks := card_marksBelow_le n
  have htrails : (listsUpTo (marksBelow n) d).card ≤ (3 * n + 1) ^ d :=
    (card_listsUpTo_le d).trans (Nat.pow_le_pow_left (by omega) d)
  have hnumbers := card_listsUpTo_le (A := Finset.range n) 7
  rw [Finset.card_range] at hnumbers
  rw [boundedCodes, Finset.card_product]
  exact Nat.mul_le_mul hnumbers
    ((card_listsUpTo_le 2).trans (Nat.pow_le_pow_left (Nat.succ_le_succ htrails) 2))

theorem Judgement.Bounded.mem_boundedCodes {n d : Nat} {J : Judgement} (h : J.Bounded n d) :
    (J.numbers, J.trails) ∈ boundedCodes n d := by
  have hslot : ∀ a : Slot, a.numbers.length = 3 ∧ a.trails.length ≤ 1 := by
    intro a
    cases a <;> simp [Slot.numbers, Slot.trails]
  refine Finset.mem_product.2 ⟨mem_listsUpTo.2 ⟨?_, fun x hx => ?_⟩,
    mem_listsUpTo.2 ⟨?_, fun t ht => ?_⟩⟩
  · cases J <;> simp [numbers, hslot]
  · exact Finset.mem_range.2 (h.1 x hx)
  · cases J with
    | reachable => simp [trails]
    | pointsTo a l => simpa [trails] using (hslot a).2
    | flow a b =>
      have ha := (hslot a).2
      have hb := (hslot b).2
      simp only [trails, List.length_append]
      omega
    | call => simp [trails]
  · obtain ⟨hlen, hmarks⟩ := h.2 t ht
    exact mem_listsUpTo.2 ⟨hlen, fun x hx => mem_marksBelow.2 (hmarks x hx)⟩

/-- A bound of the number of facts. -/
def capacity (p : Program) (σ : Sensitivity) : Nat := (boundedCodes p.extent σ.depth).card

theorem one_le_capacity (p : Program) (σ : Sensitivity) : 1 ≤ capacity p σ := by
  refine Finset.card_pos.2 ⟨([], []), Finset.mem_product.2 ⟨?_, ?_⟩⟩
  · exact mem_listsUpTo.2 ⟨Nat.zero_le _, by simp⟩
  · exact mem_listsUpTo.2 ⟨Nat.zero_le _, by simp⟩

theorem capacity_le (p : Program) (σ : Sensitivity) :
    capacity p σ ≤ 2 ^ (7 * p.extent + 2 * ((p.extent + 2) * σ.depth + 1)) := by
  generalize hn : p.extent = n
  have hpow : n + 1 ≤ 2 ^ n := Nat.lt_two_pow_self
  have hmarks : 3 * n + 1 ≤ 2 ^ (n + 2) := by
    rw [Nat.pow_add]
    omega
  have htrails : (3 * n + 1) ^ σ.depth + 1 ≤ 2 ^ ((n + 2) * σ.depth + 1) := by
    have h := Nat.pow_le_pow_left hmarks σ.depth
    rw [← Nat.pow_mul] at h
    have hpos : 1 ≤ 2 ^ ((n + 2) * σ.depth) := Nat.one_le_two_pow
    rw [Nat.pow_succ]
    omega
  calc capacity p σ ≤ (n + 1) ^ 7 * ((3 * n + 1) ^ σ.depth + 1) ^ 2 := by
        rw [← hn]
        exact card_boundedCodes_le _ _
    _ ≤ (2 ^ n) ^ 7 * (2 ^ ((n + 2) * σ.depth + 1)) ^ 2 :=
        Nat.mul_le_mul (Nat.pow_le_pow_left hpow 7) (Nat.pow_le_pow_left htrails 2)
    _ = 2 ^ (7 * n + 2 * ((n + 2) * σ.depth + 1)) := by
        rw [← Nat.pow_mul, ← Nat.pow_mul, ← Nat.pow_add, Nat.mul_comm n, Nat.mul_comm _ 2]

/-- The budget of a repetition is beyond what the facts can make necessary. -/
theorem capacity_lt_rounds (p : Program) (σ : Sensitivity) :
    (capacity p σ + p.stmts.size) * capacity p σ + 2 < 2 ^ rounds p σ := by
  have hc := capacity_le p σ
  have hstmts : p.stmts.size ≤ 2 ^ (7 * p.extent + 2 * ((p.extent + 2) * σ.depth + 1)) := by
    have hle : p.stmts.size ≤ p.extent := by
      unfold Program.extent
      omega
    have hexp : p.extent ≤ 7 * p.extent + 2 * ((p.extent + 2) * σ.depth + 1) := by omega
    exact hle.trans (Nat.lt_two_pow_self.le.trans (Nat.pow_le_pow_right (by omega) hexp))
  generalize he : 7 * p.extent + 2 * ((p.extent + 2) * σ.depth + 1) = e at hc hstmts
  have hsum : capacity p σ + p.stmts.size ≤ 2 ^ (e + 1) := by
    rw [Nat.pow_succ]
    omega
  have hprod := Nat.mul_le_mul hsum hc
  rw [← Nat.pow_add] at hprod
  have hbudget : e + 1 + e + 2 ≤ rounds p σ := by
    obtain ⟨n, hn⟩ : ∃ n, p.extent = n + 4 := ⟨_, rfl⟩
    have hrounds : rounds p σ = 16 * (σ.depth + 2) * (n + 2) := by
      have : p.classes.size + p.fields.size + p.methods.size + p.vars.size + p.stmts.size + 2 =
          n + 2 := by
        unfold Program.extent at hn
        omega
      rw [rounds, this]
    rw [hrounds, ← he, hn]
    have hl : (n + 4 + 2) * σ.depth = n * σ.depth + 6 * σ.depth := by ring
    have hr : 16 * (σ.depth + 2) * (n + 2) =
        16 * (n * σ.depth) + 32 * σ.depth + 32 * n + 64 := by ring
    rw [hl, hr]
    omega
  calc (capacity p σ + p.stmts.size) * capacity p σ + 2 < 2 ^ (e + 1 + e) * 2 ^ 2 := by
        have : 1 ≤ 2 ^ (e + 1 + e) := Nat.one_le_two_pow
        omega
    _ ≤ 2 ^ rounds p σ := by
        rw [← Nat.pow_add]
        exact Nat.pow_le_pow_right (by omega) hbudget

namespace State

/-- The facts that a state records. -/
def facts (s : State) : Set Fact := {f | s.Records f}

noncomputable def count (s : State) : Nat := s.facts.ncard

variable {s s' : State}

theorem count_congr (h : ∀ f, s'.Records f ↔ s.Records f) : s'.count = s.count := by
  simp only [count, facts, h]

theorem Extends.count_le (h : s.Extends s') (hf : s'.facts.Finite) :
    s.count ≤ s'.count :=
  Set.ncard_le_ncard (fun _ => h.records) hf

section

variable (hf : s.facts.Finite)
include hf

theorem count_succ {f : Fact} (hnew : f ∉ s.facts)
    (h : ∀ f', s'.Records f' ↔ s.Records f' ∨ f' = f) : s'.count = s.count + 1 := by
  have heq : s'.facts = insert f s.facts := by
    ext f'
    exact (h f').trans or_comm
  rw [count, heq, Set.ncard_insert_of_notMem hnew hf, count]

theorem count_add {x : PointerId} {new : ObjSet} (hnew : ∀ o ∈ new, ¬ s.Records (.pointsTo x o))
    (h : ∀ f, s'.Records f ↔ s.Records f ∨ ∃ o ∈ new, f = .pointsTo x o) :
    s'.count = s.count + new.toList.length := by
  have heq : s'.facts = s.facts ∪ (Fact.pointsTo x '' (new.toList.toFinset : Set ObjCloneId)) := by
    ext f
    simp [facts, h, SortedSet.mem_toList, eq_comm]
  have hdisjoint : Disjoint s.facts
      (Fact.pointsTo x '' (new.toList.toFinset : Set ObjCloneId)) := by
    rw [Set.disjoint_left]
    rintro _ hrec ⟨o, ho, rfl⟩
    exact hnew o (SortedSet.mem_toList.1 (by simpa using ho)) hrec
  have hinj : Function.Injective (Fact.pointsTo x) := fun _ _ h => (Fact.pointsTo.inj h).2
  rw [count, heq, Set.ncard_union_eq hdisjoint hf, Set.ncard_image_of_injective _ hinj,
    Set.ncard_coe_finset, List.toFinset_card_of_nodup new.nodup, count]

theorem length_succs_le (x : PointerId) : (s.flow.succs x).length ≤ s.count := by
  have hnodup : (s.flow.succs x).Nodup := by
    have h := Roster.nodup_toList (s.flow.targetsOf x)
    rwa [List.map_id] at h
  have hinj : Function.Injective (Fact.flow x) := fun _ _ h => (Fact.flow.inj h).2
  have hsub : Fact.flow x '' ((s.flow.succs x).toFinset : Set PointerId) ⊆ s.facts := by
    rintro _ ⟨y, hy, rfl⟩
    exact List.mem_toFinset.1 (Finset.mem_coe.1 hy)
  calc (s.flow.succs x).length = (Fact.flow x '' ((s.flow.succs x).toFinset : Set _)).ncard := by
        rw [Set.ncard_image_of_injective _ hinj, Set.ncard_coe_finset,
          List.toFinset_card_of_nodup hnodup]
    _ ≤ s.count := Set.ncard_le_ncard hsub hf

end

end State

/-- Each recorded fact stands for its own judgement. -/
theorem Balanced.facts_bounded {p : Program} {σ : Sensitivity} {D : Judgement → Prop} {s : State}
    {due : Set Judgement} (hD : Tame p σ D) (h : Balanced p σ D s due) :
    s.facts.Finite ∧ s.count ≤ capacity p σ := by
  let code (f : Fact) := (s.read f).map fun J => (J.numbers, J.trails)
  have hmaps : Set.MapsTo code s.facts ((boundedCodes p.extent σ.depth).image some) := by
    intro f hf
    obtain ⟨J, hJ, hd⟩ := h.derivable (.inl hf)
    have hmem := (hD.proper hd).1.mem_boundedCodes
    simp [code, hJ, hmem]
  have hinj : Set.InjOn code s.facts := by
    intro f hf f' hf' heq
    obtain ⟨J, hJ, -⟩ := h.derivable (.inl hf)
    obtain ⟨J', hJ', -⟩ := h.derivable (.inl hf')
    simp only [code, hJ, hJ', Option.map_some, Option.some.injEq, Prod.mk.injEq] at heq
    cases Judgement.eq_of_numbers heq.1 heq.2
    exact State.read_injective hJ hJ'
  have hfinite := Finset.finite_toSet ((boundedCodes p.extent σ.depth).image some)
  refine ⟨.of_injOn hmaps hinj hfinite, ?_⟩
  calc s.count ≤ ((boundedCodes p.extent σ.depth).image some : Set (Option _)).ncard :=
        Set.ncard_le_ncard_of_injOn code (fun f hf => hmaps hf) hinj hfinite
    _ ≤ capacity p σ := by
      rw [Set.ncard_coe_finset]
      exact Finset.card_image_le

end PointsTo

end ProgramFlow
