import Mathlib.Tactic.Basic
import ProgramFlow.Program.Builder
import ProgramFlow.Proofs.Outcome
/-!
Programs that come out of a builder. The statements of a method stand together from its entry to
its exit, every statement belongs to one method, and jumps stay inside the body.
-/
namespace ProgramFlow

/-- What can be done to an open method. -/
inductive MethodBuilder.Edits (m : MethodBuilder) : MethodBuilder → Prop
  | refl : Edits m m
  | addLocal {n : MethodBuilder} (h : Edits m n) (name : String) (ty : Ty) :
      Edits m (n.addLocal name ty).2
  | addParam {n : MethodBuilder} (h : Edits m n) (name : String) (ty : Ty) :
      Edits m (n.addParam name ty).2
  | push {n : MethodBuilder} (h : Edits m n) (instr : Instr) : Edits m (n.push instr)
  | setTarget {n : MethodBuilder} (h : Edits m n) (position target : Nat) :
      Edits m (n.setTarget position target)

/-- The builders that come from the empty one; methods are opened one at a time. -/
inductive Builder.Assembled : Builder → Prop
  | empty : Assembled .empty
  | addClass {b : Builder} (h : Assembled b) (name : String) (superclass : Option ClassId) :
      Assembled (b.addClass name superclass).2
  | addInterface {b : Builder} (h : Assembled b) (name : String) :
      Assembled (b.addInterface name).2
  | addField {b : Builder} (h : Assembled b) (owner : ClassId) (name : String) (ty : Ty)
      (isStatic : Bool) : Assembled (b.addField owner name ty isStatic).2
  | addAbstractMethod {b c : Builder} (h : Assembled b) {owner : ClassId} {name : String}
      {id : MethodId} (hc : b.addAbstractMethod owner name = .ok (id, c)) : Assembled c
  | finish {b : Builder} (h : Assembled b) (owner : ClassId) (name : String) (isStatic : Bool)
      {m n : MethodBuilder} (hm : b.openMethod owner name isStatic = .ok m) (hn : m.Edits n) :
      Assembled n.finish
  | abandon {b : Builder} (h : Assembled b) (owner : ClassId) (name : String) (isStatic : Bool)
      {m n : MethodBuilder} (hm : b.openMethod owner name isStatic = .ok m) (hn : m.Edits n) :
      Assembled n.abandon
  | setMain {b : Builder} (h : Assembled b) (m : MethodId) : Assembled (b.setMain m)

/-- A program that a builder makes. -/
def Program.Built (p : Program) : Prop := ∃ b : Builder, b.Assembled ∧ b.build = .ok p

/-- The statements of a method with this code. -/
def segment (m : MethodId) (code : List Instr) : List Stmt :=
  ⟨m, none, .entry⟩ :: code.zipIdx.map (fun (instr, i) => ⟨m, some i, instr⟩) ++
    [⟨m, none, .exit⟩]

theorem length_segment (m : MethodId) (code : List Instr) :
    (segment m code).length = code.length + 2 := by
  simp [segment]

theorem segment_entry (m : MethodId) (code : List Instr) :
    (segment m code)[0]? = some ⟨m, none, .entry⟩ := rfl

theorem segment_exit (m : MethodId) (code : List Instr) :
    (segment m code)[code.length + 1]? = some ⟨m, none, .exit⟩ := by
  simp [segment]

theorem segment_body (m : MethodId) {code : List Instr} {i : Nat} {instr : Instr}
    (h : code[i]? = some instr) : (segment m code)[i + 1]? = some ⟨m, some i, instr⟩ := by
  have hi := (List.getElem?_eq_some_iff.1 h).1
  rw [segment, List.cons_append, List.getElem?_cons_succ, List.getElem?_append_left (by simpa)]
  simp [h]

theorem method_of_segment {m : MethodId} {code : List Instr} {i : Nat} {x : Stmt}
    (h : (segment m code)[i]? = some x) : x.method = m := by
  have hx := List.mem_of_getElem? h
  simp only [segment, List.cons_append, List.mem_cons, List.mem_append, List.mem_map,
    List.not_mem_nil, or_false] at hx
  rcases hx with rfl | ⟨_, _, rfl⟩ | rfl <;> rfl

theorem getElem?_append_list {α : Type} (a : Array α) (l : List α) (i : Nat) :
    (a ++ l)[i]? = if i < a.size then a[i]? else l[i - a.size]? := by
  rw [← Array.getElem?_toList, Array.toList_appendList, List.getElem?_append]
  simp

namespace Builder

/-- The statements from `first` on are those of a method with this code. -/
def Spans (b : Builder) (m : MethodId) (first : Nat) (code : List Instr) : Prop :=
  ∀ i < code.length + 2, b.stmts[first + i]? = (segment m code)[i]?

/-- A finished method has its statements in the table, and its returned variables are those of its
code. -/
def Placed (b : Builder) (m : MethodId) (d : MethodDecl) : Prop :=
  ∃ code : List Instr, d.length = code.length ∧ d.returns = returnsOf code ∧ b.Spans m d.first code

/-- A variable of the method is in the table. -/
def Owns (b : Builder) (m : MethodId) (v : VarId) : Prop :=
  ∃ x, b.vars[v.index]? = some x ∧ x.method = m

/-- What every operation of a builder keeps. -/
structure Orderly (b : Builder) : Prop where
  placed : ∀ {i draft}, b.methods[i]? = some draft → draft.finished = true →
    b.Placed ⟨i⟩ draft.decl
  housed : ∀ {s x}, b.stmts[s]? = some x → ∃ draft, b.methods[x.method.index]? = some draft ∧
    draft.finished = true ∧ draft.decl.first ≤ s ∧ s < draft.decl.first + draft.decl.length + 2
  params : ∀ {i draft v}, b.methods[i]? = some draft → v ∈ draft.decl.params → b.Owns ⟨i⟩ v
  receiver : ∀ {i draft v}, b.methods[i]? = some draft → draft.decl.receiver = some v →
    b.Owns ⟨i⟩ v

theorem Spans.append {b c : Builder} {m : MethodId} {first : Nat} {code : List Instr}
    (h : b.Spans m first code) {l : List Stmt} (hc : c.stmts = b.stmts ++ l) :
    c.Spans m first code := by
  intro i hi
  have hb := h i hi
  have hlt : i < (segment m code).length := by rwa [length_segment]
  rw [List.getElem?_eq_getElem hlt] at hb
  have hsize := (Array.getElem?_eq_some_iff.1 hb).1
  rw [← h i hi, hc, getElem?_append_list, if_pos hsize]

theorem spans_append {b c : Builder} (m : MethodId) (code : List Instr)
    (hc : c.stmts = b.stmts ++ segment m code) : c.Spans m b.stmts.size code := by
  intro i _
  rw [hc, getElem?_append_list, if_neg (by omega), Nat.add_sub_cancel_left]

theorem Owns.of_push {b c : Builder} {m : MethodId} {v : VarId} (h : b.Owns m v) {x : VarDecl}
    (hc : c.vars = b.vars.push x) : c.Owns m v := by
  obtain ⟨y, hy, hm⟩ := h
  have hsize := (Array.getElem?_eq_some_iff.1 hy).1
  exact ⟨y, by rw [hc, Array.getElem?_push, if_neg (by omega), hy], hm⟩

theorem owns_addVar (b : Builder) (m : MethodId) (name : String) (ty : Ty) :
    (b.addVar m name ty).2.Owns m (b.addVar m name ty).1 :=
  ⟨_, Array.getElem?_push_size, rfl⟩

theorem Owns.congr {b c : Builder} {m : MethodId} {v : VarId} (h : b.Owns m v)
    (hc : c.vars = b.vars) : c.Owns m v := by
  rwa [Owns, hc]

theorem Placed.stmts {b : Builder} {m : MethodId} {d : MethodDecl} (h : b.Placed m d) :
    b.stmts[d.entry.index]? = some ⟨m, none, .entry⟩ ∧
    b.stmts[d.exit.index]? = some ⟨m, none, .exit⟩ ∧
    ∀ i < d.length, ∃ instr, b.stmts[(d.stmtAt i).index]? = some ⟨m, some i, instr⟩ := by
  obtain ⟨code, hl, -, hs⟩ := h
  refine ⟨?_, ?_, fun i hi => ?_⟩
  · exact (hs 0 (by omega)).trans (segment_entry m code)
  · have hexit := (hs (code.length + 1) (by omega)).trans (segment_exit m code)
    rwa [← hl, ← Nat.add_assoc] at hexit
  · rw [hl] at hi
    have hbody := (hs (i + 1) (by omega)).trans (segment_body m (List.getElem?_eq_getElem hi))
    rw [Nat.add_comm i 1, ← Nat.add_assoc] at hbody
    exact ⟨_, hbody⟩

theorem Placed.congr {b c : Builder} {m : MethodId} {d e : MethodDecl} (h : b.Placed m d)
    (hc : c.stmts = b.stmts) (hf : e.first = d.first) (hl : e.length = d.length)
    (hr : e.returns = d.returns) : c.Placed m e := by
  obtain ⟨code, hlen, hret, hs⟩ := h
  refine ⟨code, hl.trans hlen, hr.trans hret, ?_⟩
  rwa [hf, Spans, hc]

/-- The method has been declared and not finished. -/
def Open (b : Builder) (m : MethodId) : Prop :=
  ∃ draft, b.methods[m.index]? = some draft ∧ draft.finished = false

theorem Open.updateMethod {b : Builder} {m : MethodId} (h : b.Open m) (n : MethodId)
    {f : MethodDraft → MethodDraft} (hf : ∀ draft, (f draft).finished = draft.finished) :
    (b.updateMethod n f).Open m := by
  obtain ⟨draft, hd, hn⟩ := h
  simp only [Open, Builder.updateMethod, Array.getElem?_modify, hd]
  split
  · exact ⟨_, rfl, (hf draft).trans hn⟩
  · exact ⟨draft, rfl, hn⟩

theorem Orderly.congr {b c : Builder} (h : b.Orderly) (hm : c.methods = b.methods)
    (hs : c.stmts = b.stmts) (hv : c.vars = b.vars) : c.Orderly where
  placed hi hf := (h.placed (hm ▸ hi) hf).congr hs rfl rfl rfl
  housed hx := hm ▸ h.housed (hs ▸ hx)
  params hi hp := (h.params (hm ▸ hi) hp).congr hv
  receiver hi hr := (h.receiver (hm ▸ hi) hr).congr hv

theorem Orderly.addVar {b : Builder} (h : b.Orderly) (m : MethodId) (name : String) (ty : Ty) :
    (b.addVar m name ty).2.Orderly where
  placed hi hf := (h.placed hi hf).congr rfl rfl rfl rfl
  housed := h.housed
  params hi hp := (h.params hi hp).of_push rfl
  receiver hi hr := (h.receiver hi hr).of_push rfl

theorem Orderly.addParam {b : Builder} (h : b.Orderly) {m : MethodId} {v : VarId}
    (hv : b.Owns m v) :
    (b.updateMethod m fun draft =>
      { draft with decl := { draft.decl with params := draft.decl.params ++ [v] } }).Orderly := by
  have old : ∀ {i draft}, (b.updateMethod m fun draft => { draft with
        decl := { draft.decl with params := draft.decl.params ++ [v] } }).methods[i]? = some draft →
      ∃ draft', b.methods[i]? = some draft' ∧ draft.finished = draft'.finished ∧
        draft.decl.first = draft'.decl.first ∧ draft.decl.length = draft'.decl.length ∧
        draft.decl.returns = draft'.decl.returns ∧ draft.decl.receiver = draft'.decl.receiver ∧
        ∀ w ∈ draft.decl.params, w ∈ draft'.decl.params ∨ m.index = i ∧ w = v := by
    intro i draft hi
    rw [updateMethod, Array.getElem?_modify] at hi
    split at hi
    · next him =>
      obtain ⟨draft', hd, rfl⟩ := Option.map_eq_some_iff.1 hi
      exact ⟨draft', hd, rfl, rfl, rfl, rfl, rfl, by simp [him]⟩
    · exact ⟨draft, hi, rfl, rfl, rfl, rfl, rfl, fun w hw => .inl hw⟩
  constructor
  · intro i draft hi hf
    obtain ⟨draft', hd, hfin, hfirst, hlen, hret, -, -⟩ := old hi
    exact (h.placed hd (hfin ▸ hf)).congr rfl hfirst hlen hret
  · intro s x hx
    obtain ⟨draft, hd, hf, hs⟩ := h.housed hx
    simp only [updateMethod, Array.getElem?_modify]
    split
    · exact ⟨_, congrArg (Option.map _) hd, hf, hs⟩
    · exact ⟨draft, hd, hf, hs⟩
  · intro i draft w hi hw
    obtain ⟨draft', hd, -, -, -, -, -, hp⟩ := old hi
    rcases hp w hw with hw | ⟨rfl, rfl⟩
    · exact h.params hd hw
    · exact hv
  · intro i draft w hi hw
    obtain ⟨draft', hd, -, -, -, -, hr, -⟩ := old hi
    exact h.receiver hd (hr ▸ hw)

theorem Orderly.finish {b : Builder} (h : b.Orderly) {m : MethodId} (hm : b.Open m)
    (code : List Instr) : (b.finish m code).Orderly := by
  obtain ⟨open', hopen, hnot⟩ := hm
  have hget : ∀ {i draft}, (b.finish m code).methods[i]? = some draft →
      (m.index ≠ i ∧ b.methods[i]? = some draft) ∨
      (m.index = i ∧ draft = { decl := { open'.decl with
        first := b.stmts.size, length := code.length, returns := returnsOf code }, finished := true }) := by
    intro i draft hi
    simp only [Builder.finish, updateMethod, Array.getElem?_modify] at hi
    split at hi
    · next him =>
      subst him
      rw [hopen] at hi
      exact .inr ⟨rfl, (Option.some.inj hi).symm⟩
    · next him => exact .inl ⟨him, hi⟩
  constructor
  · intro i draft hi hf
    rcases hget hi with ⟨_, hi⟩ | ⟨rfl, rfl⟩
    · obtain ⟨c, hl, hr, hs⟩ := h.placed hi hf
      exact ⟨c, hl, hr, hs.append rfl⟩
    · exact ⟨code, rfl, rfl, spans_append m code rfl⟩
  · intro s x hx
    change (b.stmts ++ segment m code)[s]? = some x at hx
    rw [getElem?_append_list] at hx
    split at hx
    · obtain ⟨draft, hd, hf, hs⟩ := h.housed hx
      have hne : m.index ≠ x.method.index := by
        intro he
        rw [← he, hopen] at hd
        cases hd
        rw [hnot] at hf
        cases hf
      refine ⟨draft, ?_, hf, hs⟩
      simp only [Builder.finish, updateMethod, Array.getElem?_modify, if_neg hne, hd]
    · next hlt =>
      have hxm := method_of_segment hx
      have hs := (List.getElem?_eq_some_iff.1 hx).1
      rw [length_segment] at hs
      subst hxm
      refine ⟨{ decl := { open'.decl with
        first := b.stmts.size, length := code.length, returns := returnsOf code }
                finished := true }, ?_, rfl, ?_⟩
      · simp only [Builder.finish, updateMethod, Array.getElem?_modify, if_pos, hopen,
          Option.map_some]
      · dsimp only
        omega
  · intro i draft v hi hv
    rcases hget hi with ⟨_, hi⟩ | ⟨rfl, rfl⟩
    · exact h.params hi hv
    · exact h.params hopen hv
  · intro i draft v hi hv
    rcases hget hi with ⟨_, hi⟩ | ⟨rfl, rfl⟩
    · exact h.receiver hi hv
    · exact h.receiver hopen hv

theorem Orderly.pushMethod {b c : Builder} (h : b.Orderly) {draft : MethodDraft}
    (hd : draft.finished = false) (hp : draft.decl.params = [])
    (hm : c.methods = b.methods.push draft) (hs : c.stmts = b.stmts)
    (hv : ∀ {m v}, b.Owns m v → c.Owns m v)
    (hr : ∀ {v}, draft.decl.receiver = some v → c.Owns ⟨b.methods.size⟩ v) : c.Orderly := by
  have hget : ∀ {i draft'}, c.methods[i]? = some draft' →
      b.methods[i]? = some draft' ∨ i = b.methods.size ∧ draft' = draft := by
    intro i draft' hi
    rw [hm, Array.getElem?_push] at hi
    split at hi
    · next hi' => exact .inr ⟨hi', (Option.some.inj hi).symm⟩
    · exact .inl hi
  constructor
  · intro i draft' hi hf
    rcases hget hi with hi | ⟨rfl, rfl⟩
    · exact (h.placed hi hf).congr hs rfl rfl rfl
    · rw [hd] at hf
      cases hf
  · intro s x hx
    obtain ⟨draft', hd', hf, hs'⟩ := h.housed (hs ▸ hx)
    have hsize := (Array.getElem?_eq_some_iff.1 hd').1
    exact ⟨draft', by rw [hm, Array.getElem?_push, if_neg (by omega), hd'], hf, hs'⟩
  · intro i draft' v hi hv'
    rcases hget hi with hi | ⟨rfl, rfl⟩
    · exact hv (h.params hi hv')
    · rw [hp] at hv'
      cases hv'
  · intro i draft' v hi hv'
    rcases hget hi with hi | ⟨rfl, rfl⟩
    · exact hv (h.receiver hi hv')
    · exact hr hv'

theorem Orderly.declare {b c : Builder} (h : b.Orderly) {owner : ClassId} {name : String}
    {isStatic isAbstract : Bool} {m : MethodId}
    (hc : b.declare owner name isStatic isAbstract = .ok (m, c)) : c.Orderly ∧ c.Open m := by
  unfold Builder.declare at hc
  split at hc
  · cases isStatic with
    | true =>
      cases hc
      refine ⟨h.pushMethod rfl rfl rfl rfl (fun ho => ho.congr rfl) fun hr => ?_, ?_⟩
      · cases hr
      · exact ⟨_, Array.getElem?_push_size, rfl⟩
    | false =>
      cases hc
      refine ⟨h.pushMethod rfl rfl rfl rfl (fun ho => ho.of_push rfl) fun hr => ?_, ?_⟩
      · cases hr
        exact owns_addVar _ _ _ _
      · exact ⟨_, Array.getElem?_push_size, rfl⟩
  · cases hc

end Builder

/-- The open method of an orderly builder. -/
structure MethodBuilder.Orderly (m : MethodBuilder) : Prop where
  outer : m.outer.Orderly
  isOpen : m.outer.Open m.id

theorem MethodBuilder.Orderly.edits {m n : MethodBuilder} (h : m.Orderly) (he : m.Edits n) :
    n.Orderly := by
  induction he with
  | refl => exact h
  | addLocal _ name ty ih => exact ⟨ih.outer.addVar _ _ _, ih.isOpen⟩
  | @addParam n _ name ty ih =>
    have hopen : (n.outer.addVar n.id name ty).2.Open n.id := ih.isOpen
    exact ⟨(ih.outer.addVar _ _ _).addParam (n.outer.owns_addVar _ _ _),
      hopen.updateMethod n.id fun _ => rfl⟩
  | push _ _ ih => exact ⟨ih.outer, ih.isOpen⟩
  | setTarget _ _ _ ih => exact ⟨ih.outer, ih.isOpen⟩

theorem Builder.Orderly.openMethod {b : Builder} (h : b.Orderly) {owner : ClassId} {name : String}
    {isStatic : Bool} {m : MethodBuilder} (hm : b.openMethod owner name isStatic = .ok m) :
    m.Orderly := by
  obtain ⟨⟨id, c⟩, hd, hm⟩ := Outcome.bind_eq_ok.1 hm
  cases hm
  exact ⟨(h.declare hd).1, (h.declare hd).2⟩

theorem Builder.Assembled.orderly {b : Builder} (h : b.Assembled) : b.Orderly := by
  induction h with
  | empty => constructor <;> simp [Builder.empty]
  | addClass _ _ _ ih => exact ih.congr rfl rfl rfl
  | addInterface _ _ ih => exact ih.congr rfl rfl rfl
  | addField _ _ _ _ _ ih => exact ih.congr rfl rfl rfl
  | addAbstractMethod _ hc ih =>
    obtain ⟨⟨id, c⟩, hd, hc⟩ := Outcome.bind_eq_ok.1 hc
    cases hc
    exact (ih.declare hd).1.finish (ih.declare hd).2 []
  | finish _ _ _ _ hm hn ih =>
    have ho := (ih.openMethod hm).edits hn
    exact ho.outer.finish ho.isOpen _
  | abandon _ _ _ _ hm hn ih => exact ((ih.openMethod hm).edits hn).outer
  | setMain _ _ ih => exact ih.congr rfl rfl rfl

end ProgramFlow
