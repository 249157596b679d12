import ProgramFlow.Proofs.Constants.Soundness
import ProgramFlow.Proofs.Interprocedural.Constants
import ProgramFlow.Proofs.PointsTo.OverApproximation
import ProgramFlow.Proofs.Program.Memory
/-!
Loads and stores that touch one place. The points-to analysis knows their bases and constant
propagation their indices, so a load is paired with every store that has written what it reads.
-/
namespace ProgramFlow

/-- Values that stand for one integer may be equal. -/
theorem Value.Covers.mayEqual {a b : Value} {c : Int32} (ha : a.Covers (.int c))
    (hb : b.Covers (.int c)) : a.mayEqual b = true := by
  cases a with
  | undef => exact ha.elim
  | constant =>
    cases ha
    cases b with
    | undef => exact hb.elim
    | constant =>
      cases hb
      exact beq_self_eq_true _
    | nac => rfl
  | nac =>
    cases b with
    | undef => exact hb.elim
    | _ => rfl

namespace Interprocedural

open Execution (Store)
open Machine (Env Memory)

variable {p : Program} {g : Supergraph} {r : PointsTo.Result}

theorem fits_of_aliases_eq_ok {al : Aliases} (h : aliases p g r = .ok al) :
    ∀ al', some al = some al' → al'.Fits p g := by
  intro al' he
  cases he
  exact fits_of_aliases h

theorem exists_heapAccess_of_loadedVar? {i : Instr} {v : VarId} (h : loadedVar? i = some v) :
    ∃ a, heapAccess? i = some a ∧ a.kind = .load ∧ a.value = v := by
  cases i with
  | loadField | loadArray =>
    cases h
    exact ⟨_, rfl, rfl, rfl⟩
  | _ => cases h

theorem exists_heapAccess_of_storedVar? {i : Instr} {v : VarId} (h : storedVar? i = some v) :
    ∃ a, heapAccess? i = some a ∧ a.kind = .store ∧ a.value = v := by
  cases i with
  | storeField | storeArray =>
    cases h
    exact ⟨_, rfl, rfl, rfl⟩
  | _ => cases h

/-- A load and a store of integers are paired if they may touch the same place. -/
theorem mem_storesFor_of_mayTouchSame {al : Aliases} (h : aliases p g r = .ok al) {l s : StmtId}
    (hl : l ∈ g.nodes) (hs : s ∈ g.nodes) {i j : Instr} (hi : p.instr l = .ok i)
    (hj : p.instr s = .ok j) {lhs rhs : VarId} (hlhs : loadedVar? i = some lhs)
    (hrhs : storedVar? j = some rhs) (hlint : p.isIntVar lhs = .ok true)
    (hrint : p.isIntVar rhs = .ok true)
    (hsame : ∀ a b, heapAccess? i = some a → heapAccess? j = some b → mayTouchSame r a b = true) :
    s ∈ al.storesFor l := by
  obtain ⟨accesses, haccesses, hstores, -⟩ := exists_of_aliases h
  obtain ⟨a, ha, hakind, rfl⟩ := exists_heapAccess_of_loadedVar? hlhs
  obtain ⟨b, hb, hbkind, rfl⟩ := exists_heapAccess_of_storedVar? hrhs
  rw [hstores, Aliases.mem_storesFor_ofPairs, mem_touching_iff]
  exact ⟨a, b, (mem_intAccesses_iff haccesses).2 ⟨hl, hlint, i, hi, ha⟩, hakind,
    (mem_intAccesses_iff haccesses).2 ⟨hs, hrint, j, hj, hb⟩, hbkind, hsame a b ha hb⟩

/-- A load of an integer is paired with the stores of integers that may touch the same place. -/
theorem mem_storesFor_iff {al : Aliases} (h : aliases p g r = .ok al) {l s : StmtId}
    (hl : l ∈ g.nodes) {i : Instr} (hi : p.instr l = .ok i) {lhs : VarId}
    (hlhs : loadedVar? i = some lhs) (hlint : p.isIntVar lhs = .ok true) :
    s ∈ al.storesFor l ↔ s ∈ g.nodes ∧ ∃ j a b, p.instr s = .ok j ∧ heapAccess? i = some a ∧
      heapAccess? j = some b ∧ storedVar? j = some b.value ∧ p.isIntVar b.value = .ok true ∧
      mayTouchSame r a b = true := by
  constructor
  · intro hs
    obtain ⟨accesses, haccesses, hstores, -⟩ := exists_of_aliases h
    rw [hstores, Aliases.mem_storesFor_ofPairs] at hs
    obtain ⟨a, b, hload, -, hstore, hk, htouch⟩ := mem_touching_iff.1 hs
    obtain ⟨-, -, i', hi', ha⟩ := (mem_intAccesses_iff haccesses).1 hload
    obtain ⟨hn, hint, j, hj, hb⟩ := (mem_intAccesses_iff haccesses).1 hstore
    cases hi.symm.trans hi'
    exact ⟨hn, j, a, b, hj, ha, hb, storedVar?_of_heapAccess? hb hk, hint, htouch⟩
  · rintro ⟨hn, j, a, b, hj, ha, hb, hrhs, hint, htouch⟩
    refine mem_storesFor_of_mayTouchSame h hl hn hi hj hlhs hrhs hlint hint fun a' b' ha' hb' => ?_
    cases ha.symm.trans ha'
    cases hb.symm.trans hb'
    exact htouch

/-- The element that an instruction accesses. -/
def arrayAccess? : Instr → Option ArrayAccess
  | .loadArray _ access | .storeArray access _ => some access
  | _ => none

/-- The index of an access to an element is an integer variable. -/
def IntIndex (p : Program) (i : Instr) : Prop :=
  ∀ access ∈ arrayAccess? i, p.isIntVar access.index = .ok true

instance (i : Instr) : Decidable (IntIndex p i) :=
  inferInstanceAs (Decidable (∀ access ∈ arrayAccess? i, p.isIntVar access.index = .ok true))

/-- As far as the analyses know, the instruction touches the place: its base may point to the
object, and the fact before it stands for the index. -/
inductive Touches (r : PointsTo.Result) (μ : Store) (f : Fact) (i : Instr) :
    Execution.Place → Prop
  | static {a field} (ha : heapAccess? i = some a) (hplace : a.place = .staticField field)
    (hbase : a.base = none) : Touches r μ f i (.staticField field)
  | instance {a field b n o} (ha : heapAccess? i = some a) (hplace : a.place = .instanceField field)
    (hbase : a.base = some b) (hb : o ∈ r.pointsTo b) (hn : r.objectAt μ n = some o) :
    Touches r μ f i (.instanceField n field)
  | element {access n index o} {c : Int32} (ha : arrayAccess? i = some access)
    (hb : o ∈ r.pointsTo access.base) (hn : r.objectAt μ n = some o) (hc : c.toInt = (index : Nat))
    (hcover : (f.get access.index).Covers (.int c)) : Touches r μ f i (.arrayElement n index)

theorem heapAccess?_of_arrayAccess? {i : Instr} {access : ArrayAccess}
    (h : arrayAccess? i = some access) :
    ∃ a, heapAccess? i = some a ∧ a.place = .arrayElement ∧ a.base = some access.base := by
  cases i with
  | loadArray | storeArray =>
    cases h
    exact ⟨_, rfl, rfl, rfl⟩
  | _ => cases h

/-- The indices of accesses to fields are not compared. -/
theorem indicesMayMatch_of_field {i j : Instr} {a : HeapAccess} (ha : heapAccess? i = some a)
    (hplace : a.place ≠ .arrayElement) (f f' : Fact) : indicesMayMatch i j f f' = true := by
  cases i with
  | loadArray =>
    cases ha
    exact absurd rfl hplace
  | _ => rfl

theorem indicesMayMatch_of_index {i j : Instr} {a b : ArrayAccess} (ha : arrayAccess? i = some a)
    (hb : arrayAccess? j = some b) {f f' : Fact}
    (h : (f.get a.index).mayEqual (f'.get b.index) = true) : indicesMayMatch i j f f' = true := by
  cases i with
  | loadArray =>
    cases ha
    cases j with
    | storeArray =>
      cases hb
      exact h
    | _ => rfl
  | _ => rfl

namespace Touches

variable {μ : Store} {f f' : Fact} {i j : Instr} {x : Execution.Place}

/-- What an instruction touches in a run that both analyses describe. -/
theorem of_place? {ρ : Env} (hρ : ∀ {v n}, ρ.addresses v = some n →
      ∃ o ∈ r.pointsTo v, r.objectAt μ n = some o) (hdesc : p.Describes f ρ)
    (hindex : IntIndex p i) (hx : ρ.place? i = some x) : Touches r μ f i x := by
  have hfield : ∀ {access : FieldAccess} {a : HeapAccess}, heapAccess? i = some a →
      a.place = .ofField access → a.base = access.base? → ρ.addresses.place? access = some x →
      Touches r μ f i x := by
    intro access a ha hplace hbase hx
    cases access with
    | static field =>
      cases hx
      exact .static ha hplace hbase
    | «instance» b field =>
      obtain ⟨n, hn, rfl⟩ := Option.map_eq_some_iff.1 hx
      obtain ⟨o, ho, hon⟩ := hρ hn
      exact .instance ha hplace hbase ho hon
  have helement : ∀ {access : ArrayAccess}, arrayAccess? i = some access →
      ρ.element? access = some x → Touches r μ f i x := by
    intro access ha hx
    obtain ⟨n, c, index, hn, hc, hcindex, rfl⟩ := Env.element?_eq_some hx
    obtain ⟨o, ho, hon⟩ := hρ hn
    exact .element ha ho hon hcindex (hdesc _ _ (hindex access ha) hc)
  cases i with
  | loadField | storeField => exact hfield rfl rfl rfl hx
  | loadArray | storeArray => exact helement rfl hx
  | _ => cases hx

/-- The objects of a store keep their addresses. -/
theorem grow (h : Touches r μ f i x) {μ' : Store} (hle : μ.objects <+: μ'.objects) :
    Touches r μ' f i x := by
  have hkept : ∀ {n o}, r.objectAt μ n = some o → r.objectAt μ' n = some o := by
    intro n o hn
    obtain ⟨y, hy, ho⟩ := Option.bind_eq_some_iff.1 hn
    obtain ⟨hlt, rfl⟩ := List.getElem?_eq_some_iff.1 hy
    exact Option.bind_eq_some_iff.2 ⟨_, List.prefix_iff_getElem?.1 hle n hlt, ho⟩
  cases h with
  | static ha hplace hbase => exact .static ha hplace hbase
  | «instance» ha hplace hbase hb hn => exact .instance ha hplace hbase hb (hkept hn)
  | element ha hb hn hc hcover => exact .element ha hb (hkept hn) hc hcover

/-- Accesses to one place may touch the same place, also by their indices. -/
theorem same (hi : Touches r μ f i x) (hj : Touches r μ f' j x) :
    (∀ a b, heapAccess? i = some a → heapAccess? j = some b → mayTouchSame r a b = true) ∧
      indicesMayMatch i j f f' = true := by
  cases hi with
  | static ha hplace hbase =>
    cases hj with
    | static hb hplace' hbase' =>
      refine ⟨?_, indicesMayMatch_of_field ha (by simp [hplace]) f f'⟩
      intro a b ha' hb'
      cases ha.symm.trans ha'
      cases hb.symm.trans hb'
      simp [mayTouchSame, hplace, hplace', hbase, hbase', mayShareBase]
  | «instance» ha hplace hbase hv hn =>
    cases hj with
    | «instance» hb hplace' hbase' hw hn' =>
      refine ⟨?_, indicesMayMatch_of_field ha (by simp [hplace]) f f'⟩
      intro a b ha' hb'
      cases ha.symm.trans ha'
      cases hb.symm.trans hb'
      cases hn.symm.trans hn'
      have halias := r.mayAlias_iff.2 ⟨_, hv, hw⟩
      simp [mayTouchSame, hplace, hplace', hbase, hbase', mayShareBase, halias]
  | element ha hv hn hc hcover =>
    cases hj with
    | element hb hw hn' hc' hcover' =>
      constructor
      · intro a b ha' hb'
        obtain ⟨a₀, ha₀, hplace, hbase⟩ := heapAccess?_of_arrayAccess? ha
        obtain ⟨b₀, hb₀, hplace', hbase'⟩ := heapAccess?_of_arrayAccess? hb
        cases ha₀.symm.trans ha'
        cases hb₀.symm.trans hb'
        cases hn.symm.trans hn'
        have halias := r.mayAlias_iff.2 ⟨_, hv, hw⟩
        simp [mayTouchSame, hplace, hplace', hbase, hbase', mayShareBase, halias]
      · cases Int32.toInt_inj.1 (hc.trans hc'.symm)
        exact indicesMayMatch_of_index ha hb (hcover.mayEqual hcover')

end Touches

end Interprocedural

end ProgramFlow
