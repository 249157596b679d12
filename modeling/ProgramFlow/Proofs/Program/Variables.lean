import ProgramFlow.Proofs.Program.Layout
/-!
The variables that a call fills. In a built program the parameters of a method are distinct, and
its receiver is a reference and none of them.
-/
namespace ProgramFlow

namespace Builder

/-- What every operation of a builder keeps of the variables of its methods. -/
structure Distinct (b : Builder) : Prop where
  params : ∀ {i : Nat} {draft : MethodDraft}, b.methods[i]? = some draft → draft.decl.params.Nodup
  receiver : ∀ {i : Nat} {draft : MethodDraft} {v : VarId}, b.methods[i]? = some draft →
    draft.decl.receiver = some v →
      ∃ x : VarDecl, b.vars[v.index]? = some x ∧ x.ty.isReference = true
  apart : ∀ {i : Nat} {draft : MethodDraft} {v : VarId}, b.methods[i]? = some draft →
    draft.decl.receiver = some v → v ∉ draft.decl.params

/-- The methods have the variables that they had, and no variable has changed. -/
theorem Distinct.of_methods {b c : Builder} (h : b.Distinct)
    (hm : ∀ {i : Nat} {draft : MethodDraft}, c.methods[i]? = some draft →
      ∃ draft' : MethodDraft, b.methods[i]? = some draft' ∧
      draft.decl.params = draft'.decl.params ∧ draft.decl.receiver = draft'.decl.receiver)
    (hv : ∀ {i : Nat} {x : VarDecl}, b.vars[i]? = some x → c.vars[i]? = some x) : c.Distinct where
  params hi := by
    obtain ⟨draft', hd, hp, -⟩ := hm hi
    exact hp ▸ h.params hd
  receiver hi hr := by
    obtain ⟨draft', hd, -, he⟩ := hm hi
    obtain ⟨x, hx, hty⟩ := h.receiver hd (he ▸ hr)
    exact ⟨x, hv hx, hty⟩
  apart hi hr := by
    obtain ⟨draft', hd, hp, he⟩ := hm hi
    exact hp ▸ h.apart hd (he ▸ hr)

theorem Distinct.congr {b c : Builder} (h : b.Distinct) (hm : c.methods = b.methods)
    (hv : c.vars = b.vars) : c.Distinct :=
  h.of_methods (fun hi => ⟨_, hm ▸ hi, rfl, rfl⟩) fun hx => hv ▸ hx

theorem getElem?_push_of_some {α : Type} {a : Array α} {i : Nat} {x : α} (h : a[i]? = some x)
    (y : α) : (a.push y)[i]? = some x := by
  have hi := (Array.getElem?_eq_some_iff.1 h).1
  rw [Array.getElem?_push, if_neg (Nat.ne_of_lt hi), h]

theorem Distinct.addVar {b : Builder} (h : b.Distinct) (m : MethodId) (name : String) (ty : Ty) :
    (b.addVar m name ty).2.Distinct :=
  h.of_methods (fun hi => ⟨_, hi, rfl, rfl⟩) fun hx => getElem?_push_of_some hx _

theorem Distinct.finish {b : Builder} (h : b.Distinct) (m : MethodId) (code : List Instr) :
    (b.finish m code).Distinct := by
  apply h.of_methods
  · intro i draft hi
    simp only [Builder.finish, updateMethod, Array.getElem?_modify] at hi
    split at hi
    · obtain ⟨draft', hd, rfl⟩ := Option.map_eq_some_iff.1 hi
      exact ⟨draft', hd, rfl, rfl⟩
    · exact ⟨draft, hi, rfl, rfl⟩
  · exact id

/-- A variable that no method has yet becomes a parameter. -/
theorem Distinct.addParam {b : Builder} (h : b.Distinct) {v : VarId}
    (hv : ∀ {i : Nat} {draft : MethodDraft}, b.methods[i]? = some draft →
      v ∉ draft.decl.params ∧ draft.decl.receiver ≠ some v) (m : MethodId) :
    (b.updateMethod m fun draft =>
      { draft with decl := { draft.decl with params := draft.decl.params ++ [v] } }).Distinct := by
  constructor
  · intro i draft hi
    rw [updateMethod, Array.getElem?_modify] at hi
    split at hi
    · obtain ⟨draft', hd, rfl⟩ := Option.map_eq_some_iff.1 hi
      exact List.nodup_append.2 ⟨h.params hd, by simp, fun x hx y hy hxy =>
        (hv hd).1 (List.mem_singleton.1 hy ▸ hxy ▸ hx)⟩
    · exact h.params hi
  · intro i draft w hi hw
    rw [updateMethod, Array.getElem?_modify] at hi
    split at hi
    · obtain ⟨draft', hd, rfl⟩ := Option.map_eq_some_iff.1 hi
      exact h.receiver hd hw
    · exact h.receiver hi hw
  · intro i draft w hi hw
    rw [updateMethod, Array.getElem?_modify] at hi
    split at hi
    · obtain ⟨draft', hd, rfl⟩ := Option.map_eq_some_iff.1 hi
      intro hmem
      rcases List.mem_append.1 hmem with hmem | hmem
      · exact h.apart hd hw hmem
      · cases List.mem_singleton.1 hmem
        exact (hv hd).2 hw
    · exact h.apart hi hw

theorem Distinct.pushMethod {b c : Builder} (h : b.Distinct) {draft : MethodDraft}
    (hp : draft.decl.params = []) (hm : c.methods = b.methods.push draft)
    (hv : ∀ {i : Nat} {x : VarDecl}, b.vars[i]? = some x → c.vars[i]? = some x)
    (hr : ∀ {v : VarId}, draft.decl.receiver = some v →
      ∃ x : VarDecl, c.vars[v.index]? = some x ∧ x.ty.isReference = true) : c.Distinct := by
  constructor
  · intro i draft' hi
    rw [hm, Array.getElem?_push] at hi
    split at hi
    · cases hi
      rw [hp]
      exact .nil
    · exact h.params hi
  · intro i draft' v hi hv'
    rw [hm, Array.getElem?_push] at hi
    split at hi
    · cases hi
      exact hr hv'
    · obtain ⟨x, hx, hty⟩ := h.receiver hi hv'
      exact ⟨x, hv hx, hty⟩
  · intro i draft' v hi hv'
    rw [hm, Array.getElem?_push] at hi
    split at hi
    · cases hi
      simp [hp]
    · exact h.apart hi hv'

theorem Distinct.declare {b c : Builder} (h : b.Distinct) {owner : ClassId} {name : String}
    {isStatic isAbstract : Bool} {m : MethodId}
    (hc : b.declare owner name isStatic isAbstract = .ok (m, c)) : c.Distinct := by
  unfold Builder.declare at hc
  split at hc
  · cases isStatic with
    | true =>
      cases hc
      refine h.pushMethod rfl rfl (fun hx => hx) fun hr => ?_
      cases hr
    | false =>
      cases hc
      refine h.pushMethod rfl rfl (fun hx => getElem?_push_of_some hx _) fun hr => ?_
      cases hr
      exact ⟨_, Array.getElem?_push_size, rfl⟩
  · cases hc

theorem Distinct.openMethod {b : Builder} (h : b.Distinct) {owner : ClassId} {name : String}
    {isStatic : Bool} {m : MethodBuilder} (hm : b.openMethod owner name isStatic = .ok m) :
    m.outer.Distinct := by
  obtain ⟨⟨id, c⟩, hd, hm⟩ := Outcome.bind_eq_ok.1 hm
  cases hm
  exact h.declare hd

end Builder

theorem MethodBuilder.Orderly.distinct {m n : MethodBuilder} (h : m.Orderly)
    (hd : m.outer.Distinct) (he : m.Edits n) : n.outer.Distinct := by
  induction he with
  | refl => exact hd
  | addLocal _ name ty ih => exact ih.addVar _ _ _
  | @addParam n he name ty ih =>
    apply (ih.addVar n.id name ty).addParam
    intro i draft hi
    have hfresh : ∀ {m : MethodId}, ¬ n.outer.Owns m ⟨n.outer.vars.size⟩ := fun ⟨x, hx, _⟩ =>
      absurd (Array.getElem?_eq_some_iff.1 hx).1 (Nat.lt_irrefl _)
    have ho := (h.edits he).outer
    exact ⟨fun hv => hfresh (ho.params hi hv), fun hr => hfresh (ho.receiver hi hr)⟩
  | push _ _ ih => exact ih
  | setTarget _ _ _ ih => exact ih

theorem Builder.Assembled.distinct {b : Builder} (h : b.Assembled) : b.Distinct := by
  induction h with
  | empty => constructor <;> simp [Builder.empty]
  | addClass _ _ _ ih => exact ih.congr rfl rfl
  | addInterface _ _ ih => exact ih.congr rfl rfl
  | addField _ _ _ _ _ ih => exact ih.congr rfl rfl
  | addAbstractMethod _ hc ih =>
    obtain ⟨⟨id, c⟩, hd, hc⟩ := Outcome.bind_eq_ok.1 hc
    cases hc
    exact (ih.declare hd).finish _ []
  | finish hb _ _ _ hm hn ih =>
    exact ((hb.orderly.openMethod hm).distinct (ih.openMethod hm) hn).finish _ _
  | abandon hb _ _ _ hm hn ih => exact (hb.orderly.openMethod hm).distinct (ih.openMethod hm) hn
  | setMain _ _ ih => exact ih.congr rfl rfl

namespace Program.Built

variable {p : Program} {m : MethodId} {d : MethodDecl}

theorem exists_distinct (h : p.Built) (hd : p.method m = .ok d) :
    ∃ b draft, Builder.Distinct b ∧ b.methods[m.index]? = some draft ∧ draft.decl = d ∧
      b.vars = p.vars := by
  obtain ⟨b, hb, hp⟩ := h
  obtain ⟨-, -, rfl⟩ := Builder.build_eq_ok hp
  rw [method, fetch_eq_ok_iff, Array.getElem?_map, Option.map_eq_some_iff] at hd
  obtain ⟨draft, hi, rfl⟩ := hd
  exact ⟨b, draft, hb.distinct, hi, rfl, rfl⟩

theorem nodup_params (h : p.Built) (hd : p.method m = .ok d) : d.params.Nodup := by
  obtain ⟨b, draft, hb, hi, rfl, -⟩ := h.exists_distinct hd
  exact hb.params hi

/-- No argument is passed to the variable of the receiver. -/
theorem receiver_notMem_params (h : p.Built) (hd : p.method m = .ok d) {v : VarId}
    (hv : d.receiver = some v) : v ∉ d.params := by
  obtain ⟨b, draft, hb, hi, rfl, -⟩ := h.exists_distinct hd
  exact hb.apart hi hv

/-- The receiver is no integer. -/
theorem isIntVar_receiver (h : p.Built) (hd : p.method m = .ok d) {v : VarId}
    (hv : d.receiver = some v) : p.isIntVar v = .ok false := by
  obtain ⟨b, draft, hb, hi, rfl, hvars⟩ := h.exists_distinct hd
  obtain ⟨x, hx, hty⟩ := hb.receiver hi hv
  have hint : x.ty.holdsInt = false := by
    by_contra hint
    rw [Ty.not_isReference_of_holdsInt (by simpa using hint)] at hty
    cases hty
  rw [hvars] at hx
  exact Outcome.map_eq_ok.2 ⟨x, fetch_eq_ok_iff.2 hx, hint⟩

end Program.Built

end ProgramFlow
