import ProgramFlow.Proofs.Program.Layout
/-!
An abstract method of a built program has no statements but its entry and its exit: only a method
that is opened gets instructions, and no abstract method is ever opened.
-/
namespace ProgramFlow

namespace Builder

/-- What every operation of a builder keeps of its abstract methods. -/
def Bodiless (b : Builder) : Prop :=
  ∀ (i : Nat) (draft : MethodDraft), b.methods[i]? = some draft →
    draft.decl.isAbstract = true → draft.decl.length = 0

theorem Bodiless.congr {b c : Builder} (h : b.Bodiless) (hm : c.methods = b.methods) :
    c.Bodiless :=
  fun _ _ hi => h _ _ (hm ▸ hi)

theorem Bodiless.updateMethod {b : Builder} (h : b.Bodiless) {m : MethodId}
    {f : MethodDraft → MethodDraft} (hf : ∀ draft, b.methods[m.index]? = some draft →
      (f draft).decl.isAbstract = true → (f draft).decl.length = 0) :
    (b.updateMethod m f).Bodiless := by
  intro i draft hi habstract
  rw [Builder.updateMethod, Array.getElem?_modify] at hi
  split at hi
  · next him =>
    obtain ⟨draft', hd, rfl⟩ := Option.map_eq_some_iff.1 hi
    exact hf draft' (him ▸ hd) habstract
  · exact h i draft hi habstract

/-- The method gets no instructions if it is abstract. -/
theorem Bodiless.finish {b : Builder} (h : b.Bodiless) {m : MethodId} {code : List Instr}
    (hcode : ∀ draft, b.methods[m.index]? = some draft → draft.decl.isAbstract = true →
      code = []) : (b.finish m code).Bodiless := by
  have hupdate := h.updateMethod (m := m) (f := fun draft =>
    { decl := { draft.decl with
        first := b.stmts.size, length := code.length, returns := returnsOf code }
      finished := true }) fun draft hd habstract => by
    rw [hcode draft hd habstract]
    rfl
  exact hupdate.congr rfl

theorem Bodiless.declare {b c : Builder} (h : b.Bodiless) {owner : ClassId} {name : String}
    {isStatic isAbstract : Bool} {m : MethodId}
    (hc : b.declare owner name isStatic isAbstract = .ok (m, c)) :
    c.Bodiless ∧ ∀ draft, c.methods[m.index]? = some draft →
      draft.decl.isAbstract = isAbstract := by
  obtain ⟨draft, hmethods, rfl, hnew, hlength⟩ : ∃ draft, c.methods = b.methods.push draft ∧
      m = ⟨b.methods.size⟩ ∧ draft.decl.isAbstract = isAbstract ∧ draft.decl.length = 0 := by
    unfold Builder.declare at hc
    split at hc
    · cases isStatic <;> cases hc <;> exact ⟨_, rfl, rfl, rfl, rfl⟩
    · cases hc
  constructor
  · intro i draft' hi habstract
    rw [hmethods, Array.getElem?_push] at hi
    split at hi
    · cases hi
      exact hlength
    · exact h i draft' hi habstract
  · intro draft' hi
    rw [hmethods, Array.getElem?_push_size] at hi
    cases hi
    exact hnew

end Builder

/-- The open method is not abstract. -/
structure MethodBuilder.Concrete (m : MethodBuilder) : Prop where
  outer : m.outer.Bodiless
  concrete : ∀ draft, m.outer.methods[m.id.index]? = some draft → draft.decl.isAbstract = false

theorem MethodBuilder.Concrete.edits {m n : MethodBuilder} (h : m.Concrete) (he : m.Edits n) :
    n.Concrete := by
  induction he with
  | refl => exact h
  | addLocal _ name ty ih => exact ⟨ih.outer.congr rfl, ih.concrete⟩
  | @addParam n _ name ty ih =>
    have hvar : (n.outer.addVar n.id name ty).2.Bodiless := ih.outer.congr rfl
    refine ⟨hvar.updateMethod ?_, fun draft hd => ?_⟩
    · exact hvar _
    · simp only [addParam, Builder.updateMethod, Array.getElem?_modify, if_true] at hd
      obtain ⟨draft', hd', rfl⟩ := Option.map_eq_some_iff.1 hd
      exact ih.concrete draft' hd'
  | push _ _ ih => exact ⟨ih.outer, ih.concrete⟩
  | setTarget _ _ _ ih => exact ⟨ih.outer, ih.concrete⟩

theorem Builder.Bodiless.openMethod {b : Builder} (h : b.Bodiless) {owner : ClassId}
    {name : String} {isStatic : Bool} {m : MethodBuilder}
    (hm : b.openMethod owner name isStatic = .ok m) : m.Concrete := by
  obtain ⟨⟨id, c⟩, hd, hm⟩ := Outcome.bind_eq_ok.1 hm
  cases hm
  exact ⟨(h.declare hd).1, (h.declare hd).2⟩

theorem Builder.Assembled.bodiless {b : Builder} (h : b.Assembled) : b.Bodiless := by
  induction h with
  | empty => simp [Bodiless, Builder.empty]
  | addClass _ _ _ ih => exact ih.congr rfl
  | addInterface _ _ ih => exact ih.congr rfl
  | addField _ _ _ _ _ ih => exact ih.congr rfl
  | addAbstractMethod _ hc ih =>
    obtain ⟨⟨id, c⟩, hd, hc⟩ := Outcome.bind_eq_ok.1 hc
    cases hc
    exact (ih.declare hd).1.finish fun _ _ _ => rfl
  | finish _ _ _ _ hm hn ih =>
    have hn := (ih.openMethod hm).edits hn
    refine hn.outer.finish fun draft hd habstract => ?_
    rw [hn.concrete draft hd] at habstract
    cases habstract
  | abandon _ _ _ _ hm hn ih => exact ((ih.openMethod hm).edits hn).outer
  | setMain _ _ ih => exact ih.congr rfl

/-- An abstract method has an empty body. -/
theorem Program.Built.body_eq_nil {p : Program} (h : p.Built) {m : MethodId} {d : MethodDecl}
    (hd : p.method m = .ok d) (habstract : d.isAbstract = true) : d.body = [] := by
  obtain ⟨b, hb, hp⟩ := h
  obtain ⟨-, -, rfl⟩ := Builder.build_eq_ok hp
  rw [method, fetch_eq_ok_iff, Array.getElem?_map, Option.map_eq_some_iff] at hd
  obtain ⟨draft, hi, rfl⟩ := hd
  rw [MethodDecl.body, hb.bodiless _ _ hi habstract]
  rfl

end ProgramFlow
